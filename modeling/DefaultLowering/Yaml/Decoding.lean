import DefaultLowering.Text.Base64
import DefaultLowering.Text.Quoted
import DefaultLowering.Yaml.Node

/-!
# Taking values out of a document

Values that a schema asks for are taken out of the nodes of a document.  A value that does not fit is
noted as a `Problem` and decoding goes on, so that all problems of a document are reported together, in
the order in which they are met.  A `Refusal` ends the decoding at once.

An entry of a mapping with the merge key brings in the entries of another mapping, or of several; the
mapping's own entries win over merged ones, and earlier merged ones over later.
-/

namespace DefaultLowering.Yaml

/-! ## Problems -/

/-- A value that does not fit the schema. -/
inductive Problem where
  /-- A node where a value of another shape is wanted. -/
  | mismatch (line : Nat) (tag value shape : String)
  | duplicateKey (line : Nat) (key : String) (first : Nat)
  /-- Two different keys name one field. -/
  | repeatedField (line : Nat) (field shape : String)
  deriving DecidableEq, Repr, Inhabited

/-- The excerpt of a scalar in a message; collections have none. -/
def excerpt (tag value : String) : String :=
  if tag == seqTag || tag == mapTag then value
  else if Text.byteLength value.toList > 10 then
    " `" ++ String.ofList (Text.firstBytes 7 value.toList) ++ "...`"
  else " `" ++ value ++ "`"

/-- The wording of a problem. -/
def Problem.message : Problem → String
  | .mismatch line tag value shape =>
    "line " ++ toString line ++ ": cannot unmarshal " ++ tag ++ excerpt tag value ++ " into " ++ shape
  | .duplicateKey line key first =>
    "line " ++ toString line ++ ": mapping key " ++ Text.quoted key ++ " already defined at line "
      ++ toString first
  | .repeatedField line field shape =>
    "line " ++ toString line ++ ": field " ++ field ++ " already set in type " ++ shape

/-- The wording of all problems of a document. -/
def problemsMessage (ps : List Problem) : String :=
  "yaml: unmarshal errors:\n  " ++ String.intercalate "\n  " (ps.map Problem.message)

/-- Why decoding cannot go on. -/
inductive Refusal where
  /-- An alias stands inside the node it refers to. -/
  | endless (anchor : String)
  /-- The merge key has no mapping. -/
  | badMerge
  /-- A scalar is not what its tag says. -/
  | badTag (found value tag : String)
  | badBinary
  /-- Something else was expected at a line. -/
  | unexpected (line : Nat) (wanted : String)
  deriving DecidableEq, Repr, Inhabited

/-- The wording of a refusal. -/
def Refusal.message : Refusal → String
  | .endless anchor => "yaml: anchor \x27" ++ anchor ++ "\x27 value contains itself"
  | .badMerge => "yaml: map merge requires map or sequence of maps as the value"
  | .badTag found value tag => "yaml: cannot decode " ++ found ++ " `" ++ value ++ "` as a " ++ tag
  | .badBinary => "yaml: !!binary value contains invalid base64 data"
  | .unexpected line wanted => "line " ++ toString line ++ ": expected " ++ wanted

/-! ## Scalars -/

/-- What a scalar denotes. -/
inductive Denoted where
  | null
  | truth (b : Bool)
  | text (s : String)
  /-- A number or a point in time. -/
  | other
  deriving DecidableEq, Repr, Inhabited

/-- What a scalar with a tag denotes. -/
def denoted (tag value : String) : Except Refusal Denoted :=
  if tag == binaryTag then
    match Text.ofBase64 value with
    | some s => .ok (.text s)
    | none => .error .badBinary
  else if tag ∉ [boolTag, intTag, floatTag, nullTag, timestampTag] then .ok (.text value)
  else
    let found := resolvedTag (tag == timestampTag) value
    if found != tag && !(tag == floatTag && found == intTag) then .error (.badTag found value tag)
    else if found == nullTag then .ok .null
    else if found == boolTag then .ok (.truth ((truthValues.lookup value).getD false))
    else .ok .other

/-- The words that are truth values where one is wanted. -/
def truthWords : List (String × Bool) :=
  ["y", "Y", "yes", "Yes", "YES", "on", "On", "ON"].map (·, true)
    ++ ["n", "N", "no", "No", "NO", "off", "Off", "OFF"].map (·, false)

/-! ## Decoding -/

/-- Decoding, with the problems met so far. -/
abbrev Decode := StateT (List Problem) (Except Refusal)

namespace Decode

/-- Notes a problem. -/
def note (p : Problem) : Decode Unit := modify (· ++ [p])

/-- Notes that a node does not fit. -/
def mismatch (n : Node) (shape : String) : Decode Unit :=
  note (.mismatch n.line n.tag n.text shape)

/-- Runs a decoder on its own. -/
def result {α : Type} (d : Decode α) : Except Refusal (Except (List Problem) α) :=
  match d.run [] with
  | .error r => .error r
  | .ok (a, []) => .ok (.ok a)
  | .ok (_, ps) => .ok (.error ps)

end Decode

/-- The duplicate keys of a mapping: for every key, the later ones with the same text. -/
def duplicateKeys : List (Node × Node) → List Problem
  | [] => []
  | (k, _) :: rest =>
    (rest.filterMap fun (k', _) =>
      if k.sameKind k' && k.text == k'.text then some (.duplicateKey k'.line k'.text k.line) else none)
    ++ duplicateKeys rest

/-- Notes that a node does not fit; a mapping with duplicate keys has only these for problems. -/
def unfit (n : Node) (shape : String) : Decode Unit := do
  match n with
  | .mapping _ _ entries =>
    match duplicateKeys entries with
    | [] => Decode.mismatch n shape
    | ps => ps.forM Decode.note
  | _ => Decode.mismatch n shape

/-- A text, if the node is not null. -/
def decodeText (d : Document) (n : Node) : Decode (Option String) := do
  match d.deref n with
  | .scalar _ tag value =>
    match ← (denoted tag value : Except Refusal Denoted) with
    | .null => return none
    | .text s => return some s
    | _ => return some value
  | n => unfit n "string"; return none

/-- A truth value, if the node is not null. -/
def decodeTruth (d : Document) (n : Node) : Decode (Option Bool) := do
  match d.deref n with
  | .scalar line tag value =>
    match ← (denoted tag value : Except Refusal Denoted) with
    | .null => return none
    | .truth b => return some b
    | .text s =>
      match truthWords.lookup s with
      | some b => return some b
      | none => Decode.mismatch (.scalar line tag value) "bool"; return none
    | .other => Decode.mismatch (.scalar line tag value) "bool"; return none
  | n => unfit n "bool"; return none

/-- The items of a sequence; null has none. -/
def decodeItems (d : Document) (shape : String) (n : Node) : Decode (List Node) := do
  match d.deref n with
  | .sequence _ _ items => return items
  | .scalar line tag value =>
    match ← (denoted tag value : Except Refusal Denoted) with
    | .null => return []
    | _ => Decode.mismatch (.scalar line tag value) shape; return []
  | n => unfit n shape; return []

/-- A list of texts, without the null items. -/
def decodeTexts (d : Document) (n : Node) : Decode (List String) := do
  let items ← decodeItems d "[]string" n
  return (← items.mapM (decodeText d)).filterMap id

/-! ## Records -/

/-- One step of reading a mapping as a record. -/
inductive Step where
  | field (name : String) (line : Nat) (value : Node)
  | problem (p : Problem)
  | refusal (r : Refusal)
  deriving Inhabited

/-- The name that a key gives a field, or what is wrong with it; a null key gives none. -/
def keyName (d : Document) (key : Node) : Except Step (Option String) :=
  match (decodeText d key).run [] with
  | .error r => .error (.refusal r)
  | .ok (name, []) => .ok name
  | .ok (_, p :: _) => .error (.problem p)

/-- The key brings in another mapping. -/
def isMergeKey : Node → Bool
  | .scalar _ tag value => tag == mergeTag && value == "<<"
  | _ => false

/-- Goes through the entries of a mapping.  `taken` holds the names that a merged mapping does not
bring in any more; it is absent for a mapping that is not merged into another one. -/
def ownSteps (d : Document) (taken : Option (List String)) :
    List (Node × Node) → List Step × Option (List String)
  | [] => ([], taken)
  | (key, value) :: rest =>
    if isMergeKey key then ownSteps d taken rest
    else
      match keyName d key with
      | .error step =>
        let (steps, taken) := ownSteps d taken rest
        (step :: steps, taken)
      | .ok none => ownSteps d taken rest
      | .ok (some name) =>
        match taken with
        | none =>
          let (steps, taken) := ownSteps d taken rest
          (.field name key.line value :: steps, taken)
        | some names =>
          if names.contains name then ownSteps d taken rest
          else
            let (steps, taken) := ownSteps d (some (name :: names)) rest
            (.field name key.line value :: steps, taken)

/-- The texts of the keys of a mapping. -/
def keyTexts (d : Document) (entries : List (Node × Node)) : List String :=
  entries.map fun (k, _) => (d.deref k).text

/-- The steps that merging a mapping, or a sequence of mappings, adds.  `around` are the numbers of the
aliases that lead here. -/
def mergeSteps (d : Document) : Nat → List Nat → List String → Node → List Step × List String
  | 0, _, taken, _ => ([.refusal .badMerge], taken)
  | fuel + 1, around, taken, value =>
    let one (taken : List String) (n : Node) : List Step × List String :=
      let merged (around : List Nat) (n : Node) : List Step × List String :=
        match n with
        | .mapping _ _ entries =>
          match duplicateKeys entries with
          | [] =>
            let (own, names) := ownSteps d (some taken) entries
            let taken := names.getD taken
            match (entries.filter fun (k, _) => isMergeKey k).getLast? with
            | none => (own, taken)
            | some (_, v) =>
              let (more, taken) := mergeSteps d fuel around taken v
              (own ++ more, taken)
          | ps => (ps.map .problem, taken)
        | _ => ([.refusal .badMerge], taken)
      match n with
      | .alias _ name target =>
        if around.contains target then ([.refusal (.endless name)], taken)
        else merged (target :: around) (d.deref n)
      | _ => merged around n
    match value with
    | .sequence _ _ items =>
      items.foldl (fun (steps, taken) item =>
        let (more, taken) := one taken item
        (steps ++ more, taken)) ([], taken)
    | _ => one taken value

/-- All steps of reading a mapping as a record. -/
def recordSteps (d : Document) (entries : List (Node × Node)) : List Step :=
  let own := (ownSteps d none entries).1
  match (entries.filter fun (k, _) => isMergeKey k).getLast? with
  | none => own
  | some (_, v) =>
    own ++ (mergeSteps d ((d.anchored.length + 1) * (d.size + 1)) [] (keyTexts d entries) v).1

/-- Takes the steps one by one.  A field that was set is not set again. -/
def takeSteps {α : Type} (shape : String) (set : String → Node → α → Decode α) (fields : List String) :
    List Step → List String → α → Decode α
  | [], _, a => return a
  | .problem p :: steps, done, a => do
    Decode.note p
    takeSteps shape set fields steps done a
  | .refusal r :: _, _, _ => throw r
  | .field name line value :: steps, done, a => do
    if !fields.contains name then takeSteps shape set fields steps done a
    else if done.contains name then
      Decode.note (.repeatedField line name shape)
      takeSteps shape set fields steps done a
    else
      let a ← set name value a
      takeSteps shape set fields steps (name :: done) a

/-- Reads a mapping as a record with the given fields, starting from `a`; null leaves it as it is, and
so does anything that is no mapping.  Names of no field are passed over. -/
def decodeRecord {α : Type} (d : Document) (shape : String) (fields : List String)
    (set : String → Node → α → Decode α) (a : α) (n : Node) : Decode α := do
  match d.deref n with
  | .mapping _ _ entries =>
    match duplicateKeys entries with
    | [] => takeSteps shape set fields (recordSteps d entries) [] a
    | ps => ps.forM Decode.note; return a
  | .scalar line tag value =>
    match ← (denoted tag value : Except Refusal Denoted) with
    | .null => return a
    | _ => Decode.mismatch (.scalar line tag value) shape; return a
  | n => Decode.mismatch n shape; return a

/-- The items of a sequence of records, without the null items. -/
def decodeRecords {α : Type} (d : Document) (shape : String) (read : Node → Decode α) (n : Node) :
    Decode (List α) := do
  let items ← decodeItems d shape n
  let read? (n : Node) : Decode (Option α) := do
    match d.deref n with
    | .scalar line tag value =>
      match ← (denoted tag value : Except Refusal Denoted) with
      | .null => return none
      | _ => return some (← read (.scalar line tag value))
    | n => return some (← read n)
  return (← items.mapM read?).filterMap id

end DefaultLowering.Yaml
