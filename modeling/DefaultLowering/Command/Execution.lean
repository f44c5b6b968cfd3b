import DefaultLowering.Command.Options
import DefaultLowering.Command.Watch

/-!
# Running the command

What the command does on a working directory: what it prints, the files it leaves behind, and its exit
code.  Profiling makes two files, one before the run and one after it.
-/

namespace DefaultLowering.Command

/-- What a command leaves behind. -/
structure Execution where
  code : Nat
  stdout : String := ""
  stderr : String := ""
  directory : Directory

/-- The exit code of anything but a failed check. -/
def errorCode : Nat := 2

/-- The text that tells the version. -/
def versionText : String :=
  "defenderc version " ++ programVersion ++ "\n  commit: unknown\n  built:  unknown\n"

/-- The text that tells how to use the command. -/
def usageText : String :=
  "Lower default interface methods to static functions\n\nUsage:\n  defenderc [files...] [flags]\n"

/-- The message about a command line without files. -/
def noFiles : String := "requires at least 1 arg(s), only received 0"

/-- A command that ends with a message. -/
def Execution.failed (d : Directory) (message : String) : Execution :=
  { code := errorCode, stderr := message ++ "\n", directory := d }

/-- Starts watching the files and is stopped before any of them changes. -/
def watchOnce (here : String) (o : Options) (d : Directory) : Execution :=
  match Watching.start here false o.verify o.json d o.files "" with
  | .error message => .failed d message
  | .ok (_, first) => { code := 0, stdout := first, directory := d }

/-- Lowers the files and reports on them. -/
def lowerAndReport (o : Options) (d : Directory) : Execution :=
  let (results, _) := lowerPaths o.verify d o.files {}
  let status := exitStatus results
  { code := status.code
    stdout := report o.json "" results
    stderr := if status.message.isEmpty then "" else status.message ++ "\n"
    directory := d }

/-- The names of the profiles. -/
def cpuProfile : String := "cpu.prof"
def memoryProfile : String := "mem.prof"

/-- Works between making the two profiles.  That the second one cannot be made is an error
only of a run without one. -/
def profiled (work : Directory → Execution) (d : Directory) : Execution :=
  match d.create cpuProfile with
  | .error e => .failed d ("creating " ++ cpuProfile ++ ": " ++ e)
  | .ok d =>
    let x := work d
    match d.create memoryProfile with
    | .ok d => { x with directory := d }
    | .error e =>
      if x.code != 0 then x
      else
        { x with
          code := errorCode
          stderr := "creating " ++ memoryProfile ++ ": " ++ e ++ "\n" }

/-- Runs the command with its arguments; `here` is the path of the working directory. -/
def execute (here : String) (arguments : List String) (d : Directory) : Execution :=
  match Options.parse arguments with
  | .error e => .failed d e.message
  | .ok o =>
    if o.help then { code := 0, stdout := usageText, directory := d }
    else if o.version then { code := 0, stdout := versionText, directory := d }
    else if o.files.isEmpty then .failed d noFiles
    else
      let work := if o.watch then watchOnce here o else lowerAndReport o
      if o.profile then profiled work d else work d

end DefaultLowering.Command
