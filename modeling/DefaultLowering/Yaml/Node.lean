import DefaultLowering.Yaml.Token
import DefaultLowering.Yaml.Resolution

/-!
# YAML documents

A document is a tree of scalars, sequences and mappings.  An alias refers to a node that has an anchor
by the number of that node; the document keeps these nodes apart, because a node may contain an alias
to itself.

Every node has a tag, by its kind, by its text, or as written, and the line it starts on.
-/

namespace DefaultLowering.Yaml

/-- A node of a document. -/
inductive Node where
  | scalar (line : Nat) (tag value : String)
  | sequence (line : Nat) (tag : String) (items : List Node)
  /-- A mapping, with keys and values in turn. -/
  | mapping (line : Nat) (tag : String) (entries : List (Node × Node))
  /-- The node with the given anchor, by its number. -/
  | alias (line : Nat) (name : String) (target : Nat)
  deriving Inhabited

namespace Node

/-- The line on which a node starts. -/
def line : Node → Nat
  | .scalar l _ _ => l
  | .sequence l _ _ => l
  | .mapping l _ _ => l
  | .alias l _ _ => l

/-- The tag of a node; an alias has none. -/
def tag : Node → String
  | .scalar _ t _ => t
  | .sequence _ t _ => t
  | .mapping _ t _ => t
  | .alias _ _ _ => ""

/-- The text of a scalar, or the name of an alias. -/
def text : Node → String
  | .scalar _ _ v => v
  | .alias _ name _ => name
  | _ => ""

/-- Two nodes are of the same kind. -/
def sameKind : Node → Node → Bool
  | .scalar .., .scalar .. => true
  | .sequence .., .sequence .. => true
  | .mapping .., .mapping .. => true
  | .alias .., .alias .. => true
  | _, _ => false

end Node

/-- A document: its root and the nodes with anchors. -/
structure Document where
  root : Node
  anchored : List Node
  /-- A bound on the number of nodes. -/
  size : Nat
  deriving Inhabited

/-- The node that a node stands for. -/
def Document.deref (d : Document) (n : Node) : Node :=
  match n with
  | .alias _ _ target => (d.anchored[target]?).getD n
  | _ => n

/-! ## Reading nodes from tokens -/

/-- The state of the reader. -/
structure Reader where
  tokens : List Token
  /-- The meaning of the tag handles. -/
  handles : List (String × String) := [("!", "!"), ("!!", "tag:yaml.org,2002:")]
  /-- The numbers of the anchors, the latest first. -/
  anchors : List (String × Nat) := []
  anchored : List Node := []

/-- Reading, which ends at malformed text. -/
abbrev Read := StateT Reader (Except Malformed)

namespace Reader

/-- The next token. -/
def peek : Read Token := do
  match (← get).tokens with
  | [] => return ⟨.streamEnd, 0⟩
  | t :: _ =>
    match t.kind with
    | .broken cause => throw cause
    | _ => return t

/-- Passes the next token. -/
def advance : Read Unit :=
  modify fun r => { r with tokens := r.tokens.tail }

/-- The next token does not fit into something that starts at the line `start`. -/
def reject {α : Type} (start : Nat) (flaw : Flaw) : Read α := do
  throw (Malformed.inside start (← peek).line flaw)

/-- Passes a token that must be there. -/
def expect (kind : TokenKind) (start : Nat) (flaw : Flaw) : Read Unit := do
  if (← peek).kind == kind then advance else reject start flaw

/-- The next token is one of the given ones. -/
def sees (kinds : List TokenKind) : Read Bool := do
  return kinds.contains (← peek).kind

/-- The short form of a tag. -/
def shortTag (tag : String) : String :=
  let long := "tag:yaml.org,2002:".toList
  if long.isPrefixOf tag.toList then "!!" ++ String.ofList (tag.toList.drop long.length) else tag

/-- The anchor and the tag in front of a node. -/
structure Properties where
  /-- The line of the first of them. -/
  line : Option Nat := none
  anchor : Option String := none
  tag : Option String := none

/-- Reads an anchor. -/
def readAnchorToken : Read (Option (String × Nat)) := do
  let t ← peek
  match t.kind with
  | .anchor name => advance; return some (name, t.line)
  | _ => return none

/-- A tag as written. -/
structure WrittenTag where
  handle : String
  suffix : String
  line : Nat

/-- Reads a tag. -/
def readTagToken : Read (Option WrittenTag) := do
  let t ← peek
  match t.kind with
  | .tag handle suffix => advance; return some ⟨handle, suffix, t.line⟩
  | _ => return none

/-- The whole tag, in front of a node that starts at the line `start`. -/
def resolveTag (start : Nat) (t : WrittenTag) : Read String := do
  if t.handle.isEmpty then return t.suffix
  match (← get).handles.lookup t.handle with
  | some text => return text ++ t.suffix
  | none => throw (Malformed.inside start t.line .unknownHandle)

/-- Reads an anchor and a tag, in either order.  The next token is looked at before the tag is
resolved. -/
def readProperties : Read Properties := do
  let first ← peek
  let anchor ← readAnchorToken
  let tag ← readTagToken
  let anchor ← if anchor.isNone && tag.isSome then readAnchorToken else pure anchor
  let _ ← peek
  let tag ← match tag with
    | some t => some <$> resolveTag first.line t
    | none => pure none
  let line := if anchor.isSome || tag.isSome then some first.line else none
  return { line := line, anchor := anchor.map (·.1), tag := tag }

/-- Gives an anchor the next number. -/
def declareAnchor (name : Option String) : Read (Option Nat) := do
  match name with
  | none => return none
  | some name =>
    let r ← get
    let number := r.anchored.length
    set { r with anchors := (name, number) :: r.anchors, anchored := r.anchored ++ [default] }
    return some number

/-- Records the node of an anchor. -/
def fillAnchor (number : Option Nat) (n : Node) : Read Node := do
  match number with
  | none => return n
  | some i => modify fun r => { r with anchored := r.anchored.set i n }; return n

/-- The tag of a node as written, unless it is `!`. -/
def Properties.ownTag (p : Properties) : Option String :=
  match p.tag with
  | some "!" => none
  | some "" => none
  | some tag => some (shortTag tag)
  | none => none

/-- The tag of a scalar. -/
def Properties.scalarTag (p : Properties) (text : String) (quoted : Bool) : String :=
  match p.ownTag with
  | some tag => tag
  | none =>
    if quoted then strTag else if text == "<<" then mergeTag else resolvedTag true text

/-- A scalar without text. -/
def emptyScalar (line : Nat) : Node := .scalar line nullTag ""

/-- Where the node of a collection stands. -/
structure Context where
  /-- Block collections are possible. -/
  block : Bool
  /-- A sequence may start at the column of its mapping. -/
  indentless : Bool

mutual

/-- Reads a node. -/
def readNode : Nat → Context → Read Node
  | 0, _ => reject 0 .noContent
  | fuel + 1, ctx => do
    let first ← peek
    match first.kind with
    | .alias name =>
      advance
      match (← get).anchors.lookup name with
      | some target => return .alias first.line name target
      | none => throw ⟨0, .unknownAnchor name⟩
    | _ =>
      let props ← readProperties
      let line := props.line.getD first.line
      let t ← peek
      let seq (items : Read (List Node)) : Read Node := do
        let number ← declareAnchor props.anchor
        let items ← items
        fillAnchor number (.sequence line (props.ownTag.getD seqTag) items)
      let map (entries : Read (List (Node × Node))) : Read Node := do
        let number ← declareAnchor props.anchor
        let entries ← entries
        fillAnchor number (.mapping line (props.ownTag.getD mapTag) entries)
      let scalar (text : String) (quoted : Bool) : Read Node := do
        let number ← declareAnchor props.anchor
        fillAnchor number (.scalar line (props.scalarTag text quoted) text)
      match t.kind with
      | .scalar text quoted => advance; scalar text quoted
      | .flowSequenceStart => advance; seq (readFlowItems fuel t.line true)
      | .flowMappingStart => advance; map (readFlowEntries fuel t.line true)
      | kind =>
        if ctx.indentless && kind == .blockEntry then seq (readIndentlessItems fuel)
        else if ctx.block && kind == .blockSequenceStart then
          advance
          seq (readBlockItems fuel t.line)
        else if ctx.block && kind == .blockMappingStart then
          advance
          map (readBlockEntries fuel t.line)
        else if props.line.isSome then scalar "" false
        else reject line .noContent

/-- Reads the items of a block sequence up to its end. -/
def readBlockItems : Nat → (start : Nat) → Read (List Node)
  | 0, start => reject start .noItem
  | fuel + 1, start => do
    let t ← peek
    match t.kind with
    | .blockEntry =>
      advance
      let item ←
        if ← sees [.blockEntry, .blockEnd] then pure (emptyScalar t.line)
        else readNode fuel ⟨true, false⟩
      return item :: (← readBlockItems fuel start)
    | .blockEnd => advance; return []
    | _ => reject start .noItem

/-- Reads the items of a sequence at the column of its mapping. -/
def readIndentlessItems : Nat → Read (List Node)
  | 0 => reject 0 .noItem
  | fuel + 1 => do
    let t ← peek
    match t.kind with
    | .blockEntry =>
      advance
      let item ←
        if ← sees [.blockEntry, .key, .value, .blockEnd] then pure (emptyScalar t.line)
        else readNode fuel ⟨true, false⟩
      return item :: (← readIndentlessItems fuel)
    | _ => return []

/-- Reads the entries of a block mapping up to its end. -/
def readBlockEntries : Nat → (start : Nat) → Read (List (Node × Node))
  | 0, start => reject start .noKey
  | fuel + 1, start => do
    let t ← peek
    match t.kind with
    | .key =>
      advance
      let key ←
        if ← sees [.key, .value, .blockEnd] then pure (emptyScalar t.line)
        else readNode fuel ⟨true, true⟩
      let value ← readBlockValue fuel
      return (key, value) :: (← readBlockEntries fuel start)
    | .blockEnd => advance; return []
    | _ => reject start .noKey

/-- Reads the value behind a key of a block mapping. -/
def readBlockValue : Nat → Read Node
  | 0 => reject 0 .noContent
  | fuel + 1 => do
    let t ← peek
    match t.kind with
    | .value =>
      advance
      if ← sees [.key, .value, .blockEnd] then return emptyScalar t.line
      else readNode fuel ⟨true, true⟩
    | _ => return emptyScalar t.line

/-- Reads the items of a sequence in brackets. -/
def readFlowItems : Nat → (start : Nat) → Bool → Read (List Node)
  | 0, start, _ => reject start .noSequenceEnd
  | fuel + 1, start, first => do
    if ← sees [.flowSequenceEnd] then
      advance
      return []
    if !first then expect .flowEntry start .noSequenceEnd
    let t ← peek
    match t.kind with
    | .flowSequenceEnd => advance; return []
    | .key =>
      advance
      let at' ← peek
      let key ←
        if [.value, .flowEntry, .flowSequenceEnd].contains at'.kind then
          advance
          pure (emptyScalar at'.line)
        else readNode fuel ⟨false, false⟩
      let value ← readFlowValue fuel [.flowEntry, .flowSequenceEnd]
      return .mapping t.line mapTag [(key, value)] :: (← readFlowItems fuel start false)
    | _ =>
      let item ← readNode fuel ⟨false, false⟩
      return item :: (← readFlowItems fuel start false)

/-- Reads the entries of a mapping in braces. -/
def readFlowEntries : Nat → (start : Nat) → Bool → Read (List (Node × Node))
  | 0, start, _ => reject start .noMappingEnd
  | fuel + 1, start, first => do
    if ← sees [.flowMappingEnd] then
      advance
      return []
    if !first then expect .flowEntry start .noMappingEnd
    let t ← peek
    match t.kind with
    | .flowMappingEnd => advance; return []
    | .key =>
      advance
      let at' ← peek
      let key ←
        if [.value, .flowEntry, .flowMappingEnd].contains at'.kind then pure (emptyScalar at'.line)
        else readNode fuel ⟨false, false⟩
      let value ← readFlowValue fuel [.flowEntry, .flowMappingEnd]
      return (key, value) :: (← readFlowEntries fuel start false)
    | _ =>
      let key ← readNode fuel ⟨false, false⟩
      let value := emptyScalar (← peek).line
      return (key, value) :: (← readFlowEntries fuel start false)

/-- Reads the value behind a key inside brackets; `ends` are the tokens that follow no value. -/
def readFlowValue : Nat → List TokenKind → Read Node
  | 0, _ => reject 0 .noContent
  | fuel + 1, ends => do
    let t ← peek
    match t.kind with
    | .value =>
      advance
      let next ← peek
      if ends.contains next.kind then return emptyScalar next.line
      else readNode fuel ⟨false, false⟩
    | _ => return emptyScalar t.line

end

/-- Reads the directives in front of a document.  The only version is 1.1, given at most once, and a
handle has one meaning. -/
def readDirectives : Nat → Bool → List (String × String) → Read (List (String × String))
  | 0, _, _ => reject 0 .noDocumentStart
  | fuel + 1, versioned, handles => do
    match (← peek).kind with
    | .version major minor =>
      if versioned then reject 0 .repeatedVersion
      if major != 1 || minor != 1 then reject 0 .wrongVersion
      advance
      readDirectives fuel true handles
    | .tagHandle handle text =>
      if (handles.lookup handle).isSome then reject 0 .repeatedHandle
      advance
      readDirectives fuel versioned (handles ++ [(handle, text)])
    | _ => return handles

/-- Reads the first document.  The root of an empty text is a scalar without text. -/
def readDocument (fuel : Nat) : Read Node := do
  let t ← peek
  match t.kind with
  | .streamEnd => return emptyScalar t.line
  | .version .. | .tagHandle .. | .documentStart =>
    let handles ← readDirectives fuel false []
    modify fun r => { r with handles := handles ++ r.handles }
    expect .documentStart 0 .noDocumentStart
    let next ← peek
    match next.kind with
    | .version .. | .tagHandle .. | .documentStart | .documentEnd | .streamEnd =>
      return emptyScalar next.line
    | _ => readNode fuel ⟨true, false⟩
  | _ => readNode fuel ⟨true, false⟩

end Reader

/-- Reads the first document of a text. -/
def parse (text : String) : Except Malformed Document := do
  let tokens := tokenize text
  let fuel := 3 * tokens.length + 8
  let read : Read Node := do
    let root ← Reader.readDocument fuel
    let _ ← Reader.peek
    return root
  let (root, r) ← read.run { tokens := tokens }
  return { root := root, anchored := r.anchored, size := fuel }

end DefaultLowering.Yaml
