import DefaultLowering.Yaml.Scalar

/-!
# Tokens of a YAML text

The tokens make the structure explicit: where a block collection starts and ends is read off the
indentation, and a `key` token stands in front of every key.  That something is a key shows only at
the colon behind it, so the scanner remembers for every level of brackets where the last possible key
began and puts the tokens there.

A text is scanned as a whole.  If it is malformed somewhere, the tokens end with `broken`, early
enough that no token is given which a reader with a look-ahead of two tokens would not have seen.
-/

namespace DefaultLowering.Yaml

/-! ## Tokens -/

/-- What a token is. -/
inductive TokenKind where
  | streamEnd
  | documentStart
  | documentEnd
  /-- `%YAML major.minor` -/
  | version (major minor : Nat)
  /-- `%TAG handle text` -/
  | tagHandle (handle text : String)
  | blockSequenceStart
  | blockMappingStart
  | blockEnd
  | flowSequenceStart
  | flowSequenceEnd
  | flowMappingStart
  | flowMappingEnd
  | blockEntry
  | flowEntry
  | key
  | value
  | alias (name : String)
  | anchor (name : String)
  | tag (handle suffix : String)
  | scalar (text : String) (quoted : Bool)
  /-- The text is malformed here. -/
  | broken (cause : Malformed)
  deriving DecidableEq, Repr, Inhabited

/-- A token and the line it starts on, counted from one. -/
structure Token where
  kind : TokenKind
  line : Nat
  deriving DecidableEq, Repr, Inhabited

/-! ## Anchors, tags and directives -/

/-- Splits off the word characters at the cursor. -/
def readWord (c : Cursor) : String × Cursor :=
  (String.ofList (c.rest.takeWhile isWordChar), c.skipWhile isWordChar)

/-- Characters that may stand behind an anchor besides blanks. -/
def endsAnchor (c : Char) : Bool :=
  c == '?' || c == ':' || c == ',' || c == ']' || c == '\x7d' || c == '%' || c == '@' || c == '\x60'

/-- Reads the name of an anchor or an alias behind its indicator. -/
def readAnchor (c : Cursor) : Scan (String × Cursor) :=
  let (name, behind) := readWord (c.skip 1)
  if name.isEmpty || !(atGap behind.rest || behind.sees endsAnchor) then behind.flaw c.mark .badAnchor
  else .ok (name, behind)

/-- Characters of the written form of a tag. -/
def isTagChar (c : Char) : Bool :=
  isWordChar c || c == ';' || c == '/' || c == '?' || c == ':' || c == '@' || c == '&' || c == '='
    || c == '+' || c == '$' || c == ',' || c == '.' || c == '!' || c == '~' || c == '*'
    || c == '\x27' || c == '(' || c == ')' || c == '[' || c == ']' || c == '%'

/-- The byte written as `%` and two hexadecimal digits. -/
def percentByte : List Char → Except Flaw Nat
  | '%' :: cs =>
    match hexNumber 2 cs with
    | some b => .ok b
    | none => .error .badTagEscape
  | _ => .error .badTagEscape

/-- How many bytes follow the first byte of a character. -/
def tailLength (lead : Nat) : Except Flaw Nat :=
  if lead < 0x80 then .ok 0
  else if lead / 32 == 6 then .ok 1
  else if lead / 16 == 14 then .ok 2
  else if lead / 8 == 30 then .ok 3
  else .error .badTagLead

/-- Adds `n` further bytes, each written with a `%`, to the value of a character. -/
def percentTail : (n value : Nat) → List Char → Except Flaw Nat
  | 0, value, _ => .ok value
  | n + 1, value, cs => do
    let b ← percentByte cs
    if b / 64 != 2 then throw .badTagTail
    percentTail n (value * 64 + b % 64) (cs.drop 3)

/-- The text of a tag with its `%` escapes resolved. -/
def unescapeTag (cs : List Char) : Except Flaw (List Char) :=
  match cs with
  | [] => .ok []
  | c :: r =>
    if c != '%' then (unescapeTag r).map (c :: ·)
    else do
      let lead ← percentByte (c :: r)
      let n ← tailLength lead
      let value ← percentTail n (if n == 0 then lead else lead % Nat.pow 2 (6 - n)) (r.drop 2)
      let more ← unescapeTag (r.drop (2 + 3 * n))
      return Char.ofNat value :: more
  termination_by cs.length

/-- Reads the characters of a tag that starts at `start`. -/
def readTagText (start : Mark) (c : Cursor) : Scan (List Char × Cursor) :=
  match unescapeTag (c.rest.takeWhile isTagChar) with
  | .ok text => .ok (text, c.skipWhile isTagChar)
  | .error f => c.flaw start f

/-- Reads a tag handle: `!`, `!!` or `!word!`.  A text `!word` without the second mark is the start of
a tag that has no handle. -/
def readHandle (start : Mark) (c : Cursor) : Scan (List Char × Cursor) :=
  if c.seesChar '!' then
    let (word, c) := readWord (c.skip 1)
    if c.seesChar '!' then .ok ('!' :: word.toList ++ ['!'], c.skip 1)
    else .ok ('!' :: word.toList, c)
  else c.flaw start .noTagMark

/-- The text of a handle ends with its mark. -/
def isClosedHandle (handle : List Char) : Bool :=
  handle.length > 1 && handle.getLast? == some '!'

/-- Reads a tag as a handle and a suffix, without what must stand behind it.  Without a handle the
suffix is the whole tag. -/
def readTagParts (c : Cursor) : Scan ((String × String) × Cursor) := do
  let start := c.mark
  if (c.skip 1).seesChar '<' then
    let (text, c) ← readTagText start (c.skip 2)
    if text.isEmpty then c.flaw start .noTagText
    else if !c.seesChar '>' then c.flaw start .noTagEnd
    else return (("", String.ofList text), c.skip 1)
  else
    let (handle, c) ← readHandle start c
    let (text, c) ← readTagText start c
    if isClosedHandle handle then
      if text.isEmpty then c.flaw start .noTagText
      else return ((String.ofList handle, String.ofList text), c)
    else
      let suffix := handle.drop 1 ++ text
      return (if suffix.isEmpty then ("", "!") else ("!", String.ofList suffix), c)

/-- Reads a tag. -/
def readTag (c : Cursor) : Scan ((String × String) × Cursor) := do
  let (tag, behind) ← readTagParts c
  if atGap behind.rest then return (tag, behind) else behind.flaw c.mark .noGap

/-- Reads a number of at most two digits. -/
def readShortNumber (start : Mark) (c : Cursor) : Scan (Nat × Cursor) :=
  let digits := c.rest.takeWhile Char.isDigit
  if digits.isEmpty then c.flaw start .noVersion
  else if digits.length > 2 then c.flaw start .longVersion
  else .ok (digits.foldl (fun n d => n * 10 + (d.toNat - '0'.toNat)) 0, c.skip digits.length)

/-- Reads what stands behind `%YAML`. -/
def readVersionDirective (start : Mark) (c : Cursor) : Scan (TokenKind × Cursor) := do
  let (major, c) ← readShortNumber start c.skipBlanks
  if !c.seesChar '.' then c.flaw start .noVersionPoint
  let (minor, c) ← readShortNumber start (c.skip 1)
  return (.version major minor, c)

/-- Reads what stands behind `%TAG`. -/
def readTagDirective (start : Mark) (c : Cursor) : Scan (TokenKind × Cursor) := do
  let (handle, c) ← readHandle start c.skipBlanks
  if handle.length > 1 && !isClosedHandle handle then c.flaw start .noTagMark
  if !c.sees isBlank then c.flaw start .noBlank
  let (text, c) ← readTagText start c.skipBlanks
  if text.isEmpty then c.flaw start .noTagText
  if !atGap c.rest then c.flaw start .noGap
  return (.tagHandle (String.ofList handle) (String.ofList text), c)

/-- Reads a directive and the rest of its line. -/
def readDirective (c : Cursor) : Scan (TokenKind × Cursor) := do
  let start := c.mark
  let (name, c) := readWord (c.skip 1)
  if name.isEmpty then c.flaw start .noDirectiveName
  if !atGap c.rest then c.flaw start .badDirectiveName
  let (kind, c) ←
    if name == "YAML" then readVersionDirective start c
    else if name == "TAG" then readTagDirective start c
    else c.flaw start .unknownDirective
  let c := c.skipBlanks
  let c := if c.seesChar '#' then c.skipLine else c
  if c.atLineEnd then return (kind, c.skipBreak) else c.flaw start .noLineEnd

/-! ## The scanner -/

/-- The start of something that may turn out to be a key. -/
structure PossibleKey where
  /-- The key must be one, since it stands at the indentation of a mapping. -/
  required : Bool
  /-- How many tokens stand in front of it. -/
  position : Nat
  mark : Mark
  deriving Inhabited

/-- A key stands on one line and is at most 1024 characters long. -/
def PossibleKey.isStale (k : PossibleKey) (at' : Mark) : Bool :=
  k.mark.line < at'.line || k.mark.index + 1024 < at'.index

/-- The state of the scanner. -/
structure Scanner where
  cursor : Cursor
  /-- The tokens so far, the latest first. -/
  tokens : List Token := []
  /-- The column of the innermost block collection, -1 outside all. -/
  indent : Int := -1
  /-- The columns around it. -/
  outer : List Int := []
  /-- The last possible key of every level of brackets, innermost first.  Outside all brackets there
  is one level. -/
  keys : List (Option PossibleKey) := [none]
  /-- A key may start here. -/
  keyAllowed : Bool := true
  deriving Inhabited

namespace Scanner

/-- The scanner is inside brackets. -/
def inFlow (s : Scanner) : Bool := s.keys.length > 1

/-- The possible key of the current level. -/
def key? (s : Scanner) : Option PossibleKey := s.keys.head?.join

/-- The column of the cursor. -/
def column (s : Scanner) : Int := s.cursor.mark.column

/-- Appends a token that starts at the cursor. -/
def push (s : Scanner) (kind : TokenKind) : Scanner :=
  { s with tokens := ⟨kind, s.cursor.mark.line + 1⟩ :: s.tokens }

/-- Puts a token behind the first `position` tokens. -/
def insert (s : Scanner) (position : Nat) (t : Token) : Scanner :=
  let behind := s.tokens.length - position
  { s with tokens := s.tokens.take behind ++ t :: s.tokens.drop behind }

/-- Appends a token of `n` characters. -/
def take (s : Scanner) (kind : TokenKind) (n : Nat) : Scanner :=
  { s.push kind with cursor := s.cursor.skip n }

/-- Something at the cursor does not fit. -/
def flaw {α : Type} (s : Scanner) (start : Mark) (flaw : Flaw) : Scan α := s.cursor.flaw start flaw

/-- Forgets the possible key of the current level, which must not be a required one. -/
def dropKey (s : Scanner) : Scan Scanner :=
  match s.key? with
  | some k =>
    if k.required then s.flaw k.mark .missingColon
    else .ok { s with keys := none :: s.keys.tail }
  | none => .ok s

/-- Remembers that a key may start here. -/
def saveKey (s : Scanner) : Scan Scanner :=
  if !s.keyAllowed then .ok s
  else do
    let s ← s.dropKey
    let key : PossibleKey :=
      { required := !s.inFlow && s.indent == s.column
        position := s.tokens.length
        mark := s.cursor.mark }
    return { s with keys := some key :: s.keys.tail }

/-- Opens a block collection at a column to the right of the current one, with its token behind the
first `position` tokens. -/
def openBlock (s : Scanner) (kind : TokenKind) (position : Nat) (mark : Mark) : Scanner :=
  if s.inFlow || s.indent ≥ mark.column then s
  else
    { s.insert position ⟨kind, mark.line + 1⟩ with
      indent := mark.column
      outer := s.indent :: s.outer }

/-- The columns that remain open, and how many were closed. -/
def closed (column indent : Int) : List Int → Int × List Int × Nat
  | [] => (indent, [], 0)
  | next :: outer =>
    if indent > column then
      let (i, o, n) := closed column next outer
      (i, o, n + 1)
    else (indent, next :: outer, 0)

/-- Closes the block collections to the right of a column. -/
def closeBlocks (s : Scanner) (column : Int) : Scanner :=
  if s.inFlow then s
  else
    let (indent, outer, n) := closed column s.indent s.outer
    let ends := List.replicate n (⟨.blockEnd, s.cursor.mark.line + 1⟩ : Token)
    { s with indent := indent, outer := outer, tokens := ends ++ s.tokens }

/-! ### Blanks and comments -/

/-- Passes a comment, and further comments on the following lines with nothing but blanks between. -/
def skipComments (c : Cursor) : Cursor :=
  let behind := c.skipLine
  let skipped := behind.rest.takeWhile fun x => x == ' ' || x == '\t' || x == '\r' || x == '\n'
  if behind.size < c.size && (behind.rest.drop skipped.length).head? == some '#' then
    let lines := (skipped.filter (· == '\n')).length
      + (skipped.zip (skipped.drop 1 ++ [' '])).countP fun (a, b) => a == '\r' && b != '\n'
    let column := (skipped.reverse.takeWhile fun x => x == ' ' || x == '\t').length
    let next : Cursor :=
      { behind.skip skipped.length with
        mark := ⟨behind.mark.index + skipped.length, behind.mark.line + lines, column⟩
        fresh := true }
    if _h : next.size < c.size then skipComments next else next
  else behind
  termination_by c.size

/-- Passes blanks, comments and line breaks up to the next token.  Where a key may start, a tab is no
blank. -/
def skipToToken (s : Scanner) : Scanner :=
  let blank (c : Char) : Bool := c == ' ' || ((s.inFlow || !s.keyAllowed) && c == '\t')
  let c := s.cursor.skipWhile blank
  let c := if c.seesChar '#' then skipComments c else c
  if c.sees isBreak then
    let s' := { s with cursor := c.skipBreak, keyAllowed := s.keyAllowed || !s.inFlow }
    if _h : s'.cursor.size < s.cursor.size then skipToToken s' else s'
  else { s with cursor := c }
  termination_by s.cursor.size

/-- Passes a comment behind a token on the same line. -/
def skipTrailingComment (s : Scanner) : Scanner :=
  let c := s.cursor.skipBlanks
  if !s.cursor.fresh && c.seesChar '#' then { s with cursor := c.skipLine } else s

/-! ### Tokens one by one -/

/-- The end of the text. -/
def scanEnd (s : Scanner) : Scan Scanner := do
  let mark := s.cursor.mark
  let mark := if mark.column == 0 then mark else ⟨mark.index, mark.line + 1, 0⟩
  let s ← ({ s with cursor := { s.cursor with mark := mark } }.closeBlocks (-1)).dropKey
  return { s with keyAllowed := false }.push .streamEnd

/-- A directive. -/
def scanDirective (s : Scanner) : Scan Scanner := do
  let s ← (s.closeBlocks (-1)).dropKey
  let (kind, c) ← readDirective s.cursor
  return { s.push kind with cursor := c, keyAllowed := false }

/-- A mark between documents. -/
def scanDocumentMark (s : Scanner) (kind : TokenKind) : Scan Scanner := do
  let s ← (s.closeBlocks (-1)).dropKey
  return { s.take kind 3 with keyAllowed := false }

/-- An opening bracket. -/
def scanFlowStart (s : Scanner) (kind : TokenKind) : Scan Scanner := do
  let s ← s.saveKey
  return { s.take kind 1 with keys := none :: s.keys, keyAllowed := true }

/-- A closing bracket. -/
def scanFlowEnd (s : Scanner) (kind : TokenKind) : Scan Scanner := do
  let s ← s.dropKey
  let keys := if s.inFlow then s.keys.tail else s.keys
  return { s.take kind 1 with keys := keys, keyAllowed := false }

/-- A comma inside brackets. -/
def scanFlowEntry (s : Scanner) : Scan Scanner := do
  let s ← s.dropKey
  return { s.take .flowEntry 1 with keyAllowed := true }

/-- A dash in front of an item. -/
def scanBlockEntry (s : Scanner) : Scan Scanner := do
  if !s.inFlow && !s.keyAllowed then s.flaw s.cursor.mark .misplacedItem
  let s := s.openBlock .blockSequenceStart s.tokens.length s.cursor.mark
  let s ← s.dropKey
  return { s.take .blockEntry 1 with keyAllowed := true }

/-- A question mark in front of a key. -/
def scanKey (s : Scanner) : Scan Scanner := do
  if !s.inFlow && !s.keyAllowed then s.flaw s.cursor.mark .misplacedKey
  let s := s.openBlock .blockMappingStart s.tokens.length s.cursor.mark
  let s ← s.dropKey
  return { s.take .key 1 with keyAllowed := !s.inFlow }

/-- A colon in front of a value, with no key on its line. -/
def scanLoneValue (s : Scanner) : Scan Scanner :=
  if !s.inFlow && !s.keyAllowed then s.flaw s.cursor.mark .misplacedValue
  else
    let s := s.openBlock .blockMappingStart s.tokens.length s.cursor.mark
    .ok { s.take .value 1 with keyAllowed := !s.inFlow }

/-- A colon in front of a value.  The possible key before it, if there is one, is a key. -/
def scanValue (s : Scanner) : Scan Scanner :=
  match s.key? with
  | some k =>
    if !k.isStale s.cursor.mark then
      let s := s.insert k.position ⟨.key, k.mark.line + 1⟩
      let s := s.openBlock .blockMappingStart k.position k.mark
      .ok { s.take .value 1 with keys := none :: s.keys.tail, keyAllowed := false }
    else if k.required then s.flaw k.mark .missingColon
    else scanLoneValue { s with keys := none :: s.keys.tail }
  | none => s.scanLoneValue

/-- An anchor, an alias, a tag or a quoted scalar: something that may start a key. -/
def scanProperty (s : Scanner) (read : Cursor → Scan (TokenKind × Cursor)) : Scan Scanner := do
  let s ← s.saveKey
  let (kind, c) ← read s.cursor
  return { s.push kind with cursor := c, keyAllowed := false }

/-- A quoted scalar. -/
def scanQuoted (s : Scanner) (double : Bool) : Scan Scanner :=
  s.scanProperty fun c => (readQuoted double c).map fun r =>
    (.scalar (String.ofList r.text) true, r.rest)

/-- A block scalar. -/
def scanBlock (s : Scanner) (folded : Bool) : Scan Scanner := do
  let s ← s.dropKey
  let r ← readBlock folded s.indent s.cursor
  return { s.push (.scalar (String.ofList r.text) true) with cursor := r.rest, keyAllowed := true }

/-- A plain scalar. -/
def scanPlain (s : Scanner) : Scan Scanner := do
  let s ← s.saveKey
  let r ← readPlain s.inFlow (s.indent + 1) s.cursor
  return { s.push (.scalar (String.ofList r.text) false) with
    cursor := r.rest, keyAllowed := r.newLine }

/-- Characters that cannot start a plain scalar. -/
def isIndicator (c : Char) : Bool :=
  ['-', '?', ':', ',', '[', ']', '\x7b', '\x7d', '#', '&', '*', '!', '|', '>', '\x27', '"', '%', '@',
   '\x60'].contains c

/-- The token that starts with character `c` in front of `rest`. -/
def scanFrom (s : Scanner) (c : Char) (rest : List Char) : Scan Scanner :=
  let flow := s.inFlow
  let bad : Scan Scanner := s.flaw s.cursor.mark .badStart
  match c with
  | '[' => s.scanFlowStart .flowSequenceStart
  | '\x7b' => s.scanFlowStart .flowMappingStart
  | ']' => s.scanFlowEnd .flowSequenceEnd
  | '\x7d' => s.scanFlowEnd .flowMappingEnd
  | ',' => s.scanFlowEntry
  | '*' => s.scanProperty fun c => (readAnchor c).map fun (n, c) => (.alias n, c)
  | '&' => s.scanProperty fun c => (readAnchor c).map fun (n, c) => (.anchor n, c)
  | '!' => s.scanProperty fun c => (readTag c).map fun (t, c) => (.tag t.1 t.2, c)
  | '\x27' => s.scanQuoted false
  | '"' => s.scanQuoted true
  | '-' => if atGap rest then s.scanBlockEntry else s.scanPlain
  | '?' => if flow || atGap rest then s.scanKey else s.scanPlain
  | ':' => if flow || atGap rest then s.scanValue else s.scanPlain
  | '|' => if flow then bad else s.scanBlock false
  | '>' => if flow then bad else s.scanBlock true
  | _ => if isIndicator c || isBlank c then bad else s.scanPlain

/-- Scans the next token. -/
def step (s : Scanner) : Scan Scanner :=
  let s := s.skipToToken
  let s := s.closeBlocks s.column
  match s.cursor.rest with
  | [] => s.scanEnd
  | c :: rest =>
    if s.column == 0 && c == '%' then s.scanDirective
    else if s.column == 0 && atDocumentMark (c :: rest) then
      s.scanDocumentMark (if c == '-' then .documentStart else .documentEnd)
    else
      (s.scanFrom c rest).map fun s' =>
        match s'.tokens with
        | ⟨.blockEntry, _⟩ :: _ => s'
        | _ => s'.skipTrailingComment

/-- A token may still turn out to be the start of a key. -/
def isUndecided (s : Scanner) (position : Nat) : Bool :=
  s.keys.any fun k => match k with
    | some k => k.position == position && (k.required || !k.isStale s.cursor.mark)
    | none => false

/-- The tokens that a reader meets before it meets the malformed text behind the scanner. -/
def truncated (s : Scanner) (cause : Malformed) : List Token :=
  let sure := (List.range (s.tokens.length - 2)).takeWhile fun i => !s.isUndecided i
  s.tokens.reverse.take sure.length ++ [⟨.broken cause, s.cursor.mark.line + 1⟩]

/-- Scans to the end. -/
def run (s : Scanner) : List Token :=
  match s.step with
  | .error cause => s.truncated cause
  | .ok s' =>
    if s'.tokens.head?.map Token.kind == some .streamEnd then s'.tokens.reverse
    else if _h : s'.cursor.size < s.cursor.size then run s'
    else s'.tokens.reverse
  termination_by s.cursor.size

end Scanner

/-- The tokens of a text, without a byte order mark at its start. -/
def tokenize (text : String) : List Token :=
  let cs := match text.toList with
    | '\ufeff' :: cs => cs
    | cs => cs
  if cs.all isReadable then Scanner.run { cursor := Cursor.start cs }
  else [⟨.broken ⟨0, .controlCharacter⟩, 1⟩]

end DefaultLowering.Yaml
