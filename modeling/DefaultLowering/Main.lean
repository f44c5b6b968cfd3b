import DefaultLowering.Command.Execution
import DefaultLowering.Command.Timestamp
import Std.Time

/-!
# The command

Reads the files that the command line names, lowers them, prints the report and ends with the exit code.
-/

namespace DefaultLowering.Command

/-- Reads a file. -/
def readText (file : String) : IO (Except ReadFailure String) := do
  try
    let bytes ← IO.FS.readBinFile file
    return .ok (String.ofList (Text.ofBytes (bytes.toList.map UInt8.toNat)))
  catch
    | .inappropriateType .. => return .error .isDirectory
    | _ => return .error .notFound

/-- The time stamp of this moment. -/
def now : IO String := do
  let t ← Std.Time.Timestamp.now
  return timestamp t.toSecondsSinceUnixEpoch.val.toNat

/-- Reads files and lowers them, each with the time it took. -/
def lowerNow (check : Bool) : List String → NameCache → IO (List FileReport × NameCache)
  | [], cache => return ([], cache)
  | file :: files, cache => do
    let start ← IO.monoNanosNow
    let (result, cache) := lowerText check file (← readText file) cache
    let result := { result with duration := (← IO.monoNanosNow) - start }
    let (results, cache) ← lowerNow check files cache
    return (result :: results, cache)

/-- Prints the report on some files. -/
def printReport (o : Options) (results : List FileReport) : IO Unit := do
  let out ← IO.getStdout
  out.putStr (report o.json (← now) results)
  out.flush

/-- Looks at the files again and again and lowers those whose text has changed. -/
partial def watchFiles (o : Options) (known : List (String × Option String)) (cache : NameCache) :
    IO Unit := do
  IO.sleep 200
  let mut cache := cache
  let mut seen := []
  for (file, old) in known do
    let new := (← readText file).toOption
    if new.isSome && new != old then
      let (results, next) ← lowerNow o.verify [file] cache
      cache := next
      printReport o results
    seen := seen ++ [(file, new)]
  watchFiles o seen cache

/-- Lowers the files and, if asked, goes on watching them. -/
def lowerAll (o : Options) : IO ExitStatus := do
  let (results, cache) ← lowerNow o.verify o.files {}
  printReport o results
  if o.watch then
    let known ← o.files.mapM fun file => return (file, (← readText file).toOption)
    watchFiles o known cache
  return exitStatus results

/-- Ends with a message. -/
def stop (message : String) : IO UInt32 := do
  IO.eprintln message
  return errorCode.toUInt32

/-- Runs the command with the options read. -/
def run (o : Options) : IO UInt32 := do
  if o.profile then IO.FS.writeFile cpuProfile ""
  let status ← lowerAll o
  if o.profile then IO.FS.writeFile memoryProfile ""
  if !status.message.isEmpty then IO.eprintln status.message
  return status.code.toUInt32

end DefaultLowering.Command

open DefaultLowering.Command in
/-- The command. -/
def main (arguments : List String) : IO UInt32 := do
  match Options.parse arguments with
  | .error e => stop e.message
  | .ok o =>
    if o.help then IO.print usageText; return 0
    else if o.version then IO.print versionText; return 0
    else if o.files.isEmpty then stop noFiles
    else
      try run o
      catch e => stop (toString e)
