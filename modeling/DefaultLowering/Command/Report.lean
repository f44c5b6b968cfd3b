import DefaultLowering.Command.Directory
import DefaultLowering.Description.Loader
import DefaultLowering.Lowering.Run
import DefaultLowering.Program.Printer
import DefaultLowering.Text.Json

/-!
# Lowering files and reporting on them

Every file is lowered for itself; only the name cache is shared.  A file that cannot be read, loaded or
lowered is reported in its place and does not keep the others from being lowered.
-/

namespace DefaultLowering.Command

/-- Why a file could not be lowered. -/
inductive FileError where
  | unreadable (failure : ReadFailure)
  | load (error : Description.LoadError)
  | run (error : RunError)

/-- The wording of an error about a file. -/
def FileError.message (file : String) : FileError → String
  | .unreadable failure => "read program: " ++ failure.message file
  | .load error => error.message file
  | .run error => error.message

/-- The error is a failed check of the lowered program, the mildest of errors. -/
def FileError.isVerification : FileError → Bool
  | .run (.unverified _) => true
  | _ => false

/-- What came of a file. -/
structure FileReport where
  file : String
  summary : Option Summary := none
  /-- The keys of the twins made. -/
  twins : List String := []
  /-- The keys of the forwarders added. -/
  forwarders : List String := []
  /-- The text of the lowered program, empty if there is none. -/
  program : String := ""
  error : Option FileError := none
  /-- How long it took, in nanoseconds. -/
  duration : Nat := 0

/-- The wording of a result's error, empty without one. -/
def FileReport.errorText (r : FileReport) : String :=
  (r.error.map (FileError.message r.file)).getD ""

/-- Lowers a file that was read. -/
def lowerText (check : Bool) (file : String) (text : Except ReadFailure String) (cache : NameCache) :
    FileReport × NameCache :=
  match text with
  | .error failure => ({ file := file, error := some (.unreadable failure) }, cache)
  | .ok text =>
    match Description.loadText file text with
    | .error e => ({ file := file, error := some (.load e) }, cache)
    | .ok p =>
      let r := p.run check cache
      let error := r.error.map .run
      match r.summary with
      | none => ({ file := file, error := error }, r.cache)
      | some s =>
        ({ file := file
           summary := some s
           twins := s.twins.map r.program.keyText
           forwarders := s.forwarders.map r.program.keyText
           program := r.program.text
           error := error }, r.cache)

/-- Lowers files that were read, one after the other. -/
def lowerTexts (check : Bool) :
    List (String × Except ReadFailure String) → NameCache → List FileReport × NameCache
  | [], cache => ([], cache)
  | (file, text) :: rest, cache =>
    let (result, cache) := lowerText check file text cache
    let (results, cache) := lowerTexts check rest cache
    (result :: results, cache)

/-- Lowers files of a directory. -/
def lowerPaths (check : Bool) (d : Directory) (files : List String) (cache : NameCache) :
    List FileReport × NameCache :=
  lowerTexts check (files.map fun file => (file, d.read file)) cache

/-- Lowers files unless the run was cancelled beforehand.  Cancellation is a failure of the whole run if
there was anything to do. -/
def lowerUnlessCancelled (cancelled check : Bool) (d : Directory) (files : List String) :
    Except String (List FileReport × NameCache) :=
  if cancelled && !files.isEmpty then .error "context canceled"
  else .ok (lowerPaths check d files {})

/-! ## Reports -/

/-- The lowered programs; if there are several files, each behind a line with its name. -/
def textReport (results : List FileReport) : String :=
  String.join (results.map fun r =>
    if r.program.isEmpty then ""
    else (if results.length > 1 then "// " ++ r.file ++ "\n" else "") ++ r.program)

/-- The numbers of a summary. -/
def summaryJson (s : Summary) : Text.Json :=
  .record
    [("twins_created", .number s.twins.length),
     ("forwarders_added", .number s.forwarders.length),
     ("calls_rewritten", .number s.counts.calls),
     ("fragment_refs_rewritten", .number s.counts.references),
     ("fragment_invocations_rewritten", .number s.counts.invocations),
     ("fragments_rewritten", .number s.counts.fragments)]

/-- A list of texts as a field, left out if it is empty. -/
def textsField (name : String) (texts : List String) : List (String × Text.Json) :=
  if texts.isEmpty then [] else [(name, .list (texts.map .text))]

/-- A text as a field, left out if it is empty. -/
def textField (name text : String) : List (String × Text.Json) :=
  if text.isEmpty then [] else [(name, .text text)]

/-- One result as a record. -/
def FileReport.json (r : FileReport) : Text.Json :=
  .record
    ([("file", .text r.file)]
      ++ (r.summary.map fun s => [("stats", summaryJson s)]).getD []
      ++ textsField "twins" r.twins
      ++ textsField "forwarders" r.forwarders
      ++ textField "program" r.program
      ++ textField "error" r.errorText
      ++ [("duration", .number r.duration)])

/-- The version of the program. -/
def programVersion : String := "dev"

/-- All results as JSON, with the time of the report. -/
def jsonReport (timestamp : String) (results : List FileReport) : String :=
  Text.Json.render "" (.record
    [("files", .list (results.map FileReport.json)),
     ("version", .text programVersion),
     ("timestamp", .text timestamp)]) ++ "\n"

/-- The report in the wanted form. -/
def report (json : Bool) (timestamp : String) (results : List FileReport) : String :=
  if json then jsonReport timestamp results else textReport results

/-! ## Exit status -/

/-- The exit status and the message of a run: zero if all went well, one if only checks of lowered
programs failed, else two. -/
structure ExitStatus where
  code : Nat
  message : String
  deriving DecidableEq, Repr, Inhabited

/-- The code of one result. -/
def FileReport.code (r : FileReport) : Nat :=
  match r.error with
  | none => 0
  | some e => if e.isVerification then 1 else 2

/-- The exit status of a run. -/
def exitStatus (results : List FileReport) : ExitStatus :=
  let failed := results.filter fun r => r.error.isSome
  { code := (results.map FileReport.code).foldl max 0
    message := String.intercalate "\n" (failed.map fun r => r.file ++ ": " ++ r.errorText) }

end DefaultLowering.Command
