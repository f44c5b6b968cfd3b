import DefaultLowering.Conformance.Archive
import DefaultLowering.Yaml.Decoding

/-!
# Conformance cases

A case is an archive with two files: the description of a program, and what lowering it is expected to
bring about.
-/

namespace DefaultLowering.Conformance

/-- What is expected of lowering a program. -/
structure Expectation where
  /-- The keys of the twins, in the order of their making. -/
  twins : List String := []
  /-- The keys of the forwarders, in the order of their making. -/
  forwarders : List String := []
  /-- Text that the lowered program contains. -/
  contains : List String := []
  /-- Text that it does not contain. -/
  notContains : List String := []
  /-- A part of the error that lowering ends with; empty if it is to succeed. -/
  error : String := ""
  deriving DecidableEq, Repr, Inhabited

/-- A case. -/
structure Case where
  comment : String
  program : String
  expected : Expectation
  deriving DecidableEq, Repr, Inhabited

/-- Why an archive is no case. -/
inductive CaseError where
  | unexpectedFile (name : String)
  | missingProgram
  | missingExpectation
  | malformed (m : Yaml.Malformed)
  | refused (r : Yaml.Refusal)
  | unfit (problems : List Yaml.Problem)
  deriving Inhabited

/-- The names of the two files. -/
def programName : String := "program.yaml"
def expectationName : String := "expected.yaml"

/-- The wording of an error. -/
def CaseError.message : CaseError → String
  | .unexpectedFile name => "unexpected file " ++ name
  | .missingProgram => "missing " ++ programName
  | .missingExpectation => "missing " ++ expectationName
  | .malformed m => expectationName ++ ": " ++ m.message
  | .refused r => expectationName ++ ": " ++ r.message
  | .unfit problems => expectationName ++ ": " ++ Yaml.problemsMessage problems

/-- Takes one entry of an expectation. -/
def Expectation.set (d : Yaml.Document) (name : String) (n : Yaml.Node) (e : Expectation) :
    Yaml.Decode Expectation := do
  match name with
  | "twins" => return { e with twins := ← Yaml.decodeTexts d n }
  | "forwarders" => return { e with forwarders := ← Yaml.decodeTexts d n }
  | "contains" => return { e with contains := ← Yaml.decodeTexts d n }
  | "not_contains" => return { e with notContains := ← Yaml.decodeTexts d n }
  | "error" => return { e with error := (← Yaml.decodeText d n).getD e.error }
  | _ => return e

/-- Reads an expectation over one that was read before. -/
def Expectation.update (e : Expectation) (text : String) : Except CaseError Expectation :=
  match Yaml.parse text with
  | .error m => .error (.malformed m)
  | .ok d =>
    let fields := ["twins", "forwarders", "contains", "not_contains", "error"]
    let read := Yaml.decodeRecord d "harness.TestCase" fields (Expectation.set d) e d.root
    match read.result with
    | .error r => .error (.refused r)
    | .ok (.error problems) => .error (.unfit problems)
    | .ok (.ok e) => .ok e

/-- What the files of an archive have given so far. -/
structure Case.Parts where
  program : Option String := none
  expected : Option Expectation := none
  deriving Inhabited

/-- Takes the files of an archive one by one.  Of several with one name, the last program counts, and
every expectation is read over the one before it. -/
def Case.takeFiles : List ArchiveFile → Case.Parts → Except CaseError Case.Parts
  | [], parts => .ok parts
  | f :: fs, parts =>
    if f.name == programName then Case.takeFiles fs { parts with program := f.data }
    else if f.name == expectationName then do
      let expected ← (parts.expected.getD {}).update (f.data.getD "")
      Case.takeFiles fs { parts with expected := some expected }
    else .error (.unexpectedFile f.name)

/-- Reads a case from an archive. -/
def Case.ofArchive (a : Archive) : Except CaseError Case := do
  let parts ← Case.takeFiles a.files {}
  match parts.program, parts.expected with
  | none, _ => throw .missingProgram
  | _, none => throw .missingExpectation
  | some program, some expected => return ⟨Text.trim a.comment, program, expected⟩

end DefaultLowering.Conformance
