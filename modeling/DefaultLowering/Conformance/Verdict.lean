import DefaultLowering.Conformance.Case
import DefaultLowering.Description.Loader
import DefaultLowering.Lowering.Run
import DefaultLowering.Program.Printer

/-!
# Verdicts on conformance cases

A case passes if its program fails with the expected error, or if no error is expected and there is none,
the twins and the forwarders are the expected ones in the expected order, and the text of the lowered
program contains what it should and nothing that it should not.
-/

namespace DefaultLowering.Conformance

/-- What came of loading and lowering the program of a case. -/
inductive Outcome where
  | failed (error : String)
  | lowered (twins forwarders : List String) (text : String)
  deriving DecidableEq, Repr, Inhabited

/-- What is found about a case. -/
structure Verdict where
  success : Bool
  message : String
  details : List String := []
  /-- The lowered program, empty if there was an error or one was expected. -/
  text : String := ""
  deriving DecidableEq, Repr, Inhabited

/-- The keys in the order of their text. -/
def sortedKeys (keys : List String) : List String :=
  keys.mergeSort fun a b => !(b < a)

/-- The keys in brackets. -/
def keysText (keys : List String) : String :=
  "[" ++ String.intercalate " " keys ++ "]"

/-- The differences between two lists of keys: those missing, those unexpected, or else the order. -/
def keyDifferences (what : String) (expected actual : List String) : List String :=
  let missing := sortedKeys (expected.filter fun k => !actual.contains k)
  let unexpected := sortedKeys (actual.filter fun k => !expected.contains k)
  let details := missing.map (fun k => "Missing " ++ what ++ ": " ++ k)
    ++ unexpected.map (fun k => "Unexpected " ++ what ++ ": " ++ k)
  if details.isEmpty && expected != actual then
    [what ++ " order: expected " ++ keysText expected ++ ", got " ++ keysText actual]
  else details

/-- All that differs between a lowered program and the expectation. -/
def differences (e : Expectation) (twins forwarders : List String) (text : String) : List String :=
  keyDifferences "twin" e.twins twins
    ++ keyDifferences "forwarder" e.forwarders forwarders
    ++ (e.contains.filter fun s => !Text.isInfix s text).map
        (fun s => "Dump should contain " ++ Text.quoted s)
    ++ (e.notContains.filter fun s => Text.isInfix s text).map
        (fun s => "Dump should not contain " ++ Text.quoted s)

/-- Judges an outcome. -/
def judge (e : Expectation) : Outcome → Verdict
  | .failed error =>
    if e.error.isEmpty then ⟨false, "Unexpected error", [error], ""⟩
    else if Text.isInfix e.error error then ⟨true, "Got expected error: " ++ error, [], ""⟩
    else
      ⟨false, "Wrong error",
        ["expected error containing " ++ Text.quoted e.error ++ ", got " ++ error], ""⟩
  | .lowered twins forwarders text =>
    if !e.error.isEmpty then
      ⟨false, "Missing error", ["expected error containing " ++ Text.quoted e.error], ""⟩
    else
      match differences e twins forwarders text with
      | [] =>
        ⟨true, toString e.twins.length ++ " twin(s), " ++ toString e.forwarders.length
          ++ " forwarder(s) as expected", [], text⟩
      | details =>
        ⟨false, "Test failed: " ++ toString details.length ++ " problem(s)",
          details ++ ["Lowered program:\n" ++ text], text⟩

/-- Loads and lowers the program of a case. -/
def Case.outcome (c : Case) (name : String) (cache : NameCache) : Outcome × NameCache :=
  let file := name ++ "/" ++ programName
  match Description.loadText file c.program with
  | .error e => (.failed (e.message file), cache)
  | .ok p =>
    let r := p.run true cache
    match r.error, r.summary with
    | some e, _ => (.failed e.message, r.cache)
    | none, none => (.failed "", r.cache)
    | none, some s =>
      (.lowered (s.twins.map r.program.keyText) (s.forwarders.map r.program.keyText) r.program.text,
        r.cache)

/-- Runs a case under a name.  A case with an empty program cannot be run. -/
def Case.run (c : Case) (name : String) (cache : NameCache) : Option (Verdict × NameCache) :=
  if c.program.isEmpty then none
  else
    let (outcome, cache) := c.outcome name cache
    some (judge c.expected outcome, cache)

/-! ## Collections of cases -/

/-- The extension of a file name: from its last dot on. -/
def extension (name : String) : String :=
  let behind := (name.toList.reverse.takeWhile (· != '.')).reverse
  if behind.length == name.length then "" else String.ofList ('.' :: behind)

/-- The name of a case in a file: the file name without its extension. -/
def caseName (file : String) : String :=
  String.ofList (file.toList.take (file.length - (extension file).length))

/-- The files, of several with one name only the last. -/
def latest {α : Type} (files : List (String × α)) : List (String × α) :=
  files.foldl (fun kept f => (kept.filter fun x => x.1 != f.1) ++ [f]) []

/-- The cases among some files, in the order of the file names. -/
def discover {α : Type} (files : List (String × α)) : List (String × α) :=
  ((latest files).filter fun f => extension f.1 == ".txtar").mergeSort fun a b => !(b.1 < a.1)

/-- Runs cases one after the other.  There is no answer if one of them cannot be run. -/
def runAll : List (String × Case) → NameCache → Option (List (String × Verdict))
  | [], _ => some []
  | (file, c) :: rest, cache =>
    match c.run (caseName file) cache with
    | none => none
    | some (verdict, cache) => (runAll rest cache).map ((caseName file, verdict) :: ·)

end DefaultLowering.Conformance
