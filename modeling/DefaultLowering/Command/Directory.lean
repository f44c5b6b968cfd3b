/-!
# The working directory

A command works on the files of one directory and those below it.  A path is resolved step by step:
every part but the last has to be a directory.  What lies outside the working directory is not known;
the directories around it exist and hold nothing else.
-/

namespace DefaultLowering.Command

/-- What a path may lead to. -/
inductive Entry where
  | file (text : String)
  | directory
  deriving DecidableEq, Repr, Inhabited

/-- The files and directories below the working directory, by the parts of their paths.  Of two entries
with the same path the later one counts. -/
structure Directory where
  entries : List (List String × Entry) := []
  deriving DecidableEq, Repr, Inhabited

/-- Why a file cannot be read. -/
inductive ReadFailure where
  | notFound
  | notADirectory
  | isDirectory
  deriving DecidableEq, Repr, Inhabited

/-- The wording of a failure. -/
def ReadFailure.reason : ReadFailure → String
  | .notFound => "no such file or directory"
  | .notADirectory => "not a directory"
  | .isDirectory => "is a directory"

/-- The wording of a failure to read the file with a path.  A directory can be opened. -/
def ReadFailure.message (path : String) (failure : ReadFailure) : String :=
  (if failure = .isDirectory then "read " else "open ") ++ path ++ ": " ++ failure.reason

/-- The parts of a path. -/
def pathParts (path : String) : List String :=
  (path.toList.splitOn '/').map String.ofList

namespace Directory

/-- Adds a file or replaces it. -/
def write (d : Directory) (path : List String) (text : String) : Directory :=
  ⟨d.entries ++ [(path, .file text)]⟩

/-- Removes a file.  The directory that held it stays. -/
def remove (d : Directory) (path : List String) : Directory :=
  let others := d.entries.filter fun e => e.1 != path
  ⟨if path.dropLast.isEmpty then others else (path.dropLast, .directory) :: others⟩

/-- What stands at a path inside the directory.  A path in front of an entry is a directory. -/
def lookup (d : Directory) (path : List String) : Option Entry :=
  if path.isEmpty then some .directory
  else
    match d.entries.reverse.lookup path with
    | some e => some e
    | none =>
      if d.entries.any fun e => path.isPrefixOf e.1 then some .directory else none

/-- Where the steps of a path have led: inside the working directory, or up from it. -/
inductive Place where
  | inside (path : List String)
  | above (levels : Nat)
  deriving DecidableEq, Repr, Inhabited

/-- Follows the parts of a path. -/
def follow (d : Directory) : List String → Place → Except ReadFailure Entry
  | [], .above _ => .ok .directory
  | [], .inside path =>
    match d.lookup path with
    | some e => .ok e
    | none => .error .notFound
  | part :: parts, .above levels =>
    if part == "" || part == "." then d.follow parts (.above levels)
    else if part == ".." then d.follow parts (.above (levels + 1))
    else .error .notFound
  | part :: parts, .inside path =>
    match d.lookup path with
    | none => .error .notFound
    | some (.file _) => .error .notADirectory
    | some .directory =>
      if part == "" || part == "." then d.follow parts (.inside path)
      else if part == ".." then
        d.follow parts (if path.isEmpty then .above 1 else .inside path.dropLast)
      else d.follow parts (.inside (path ++ [part]))

/-- Reads the file with a path. -/
def read (d : Directory) (path : String) : Except ReadFailure String :=
  match pathParts path with
  | "" :: parts =>
    if path.isEmpty then .error .notFound
    else if parts.all fun x => x == "" || x == "." || x == ".." then .error .isDirectory
    else .error .notFound
  | parts =>
    match d.follow parts (.inside []) with
    | .ok (.file text) => .ok text
    | .ok .directory => .error .isDirectory
    | .error e => .error e

/-- Creates an empty file in the working directory, or empties it. -/
def create (d : Directory) (name : String) : Except String Directory :=
  match d.lookup [name] with
  | some .directory => .error ("open " ++ name ++ ": is a directory")
  | _ => .ok (d.write [name] "")

/-- The names in the working directory, in the order of their text. -/
def names (d : Directory) : List String :=
  let first := d.entries.filterMap fun e => e.1.head?
  (first.foldl (fun acc x => if acc.contains x then acc else acc ++ [x]) []).mergeSort
    fun a b => !(b < a)

end Directory

end DefaultLowering.Command
