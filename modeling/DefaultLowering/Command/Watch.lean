import DefaultLowering.Command.Report

/-!
# Watching files

Watching lowers all files once and then each file again whenever it is written.  A file is known by its
absolute path, so that it does not matter how it was named; if two arguments name the same file, the
later one counts.
-/

namespace DefaultLowering.Command

/-- An absolute path: inside the working directory, above it, or anywhere. -/
inductive AbsolutePath where
  | inside (parts : List String)
  | above (levels : Nat) (parts : List String)
  | root (parts : List String)
  deriving DecidableEq, Repr, Inhabited

namespace AbsolutePath

/-- Takes one part of a path without looking at the directory. -/
def step (p : AbsolutePath) (part : String) : AbsolutePath :=
  if part == "" || part == "." then p
  else if part == ".." then
    match p with
    | .inside [] => .above 1 []
    | .inside parts => .inside parts.dropLast
    | .above n [] => .above (n + 1) []
    | .above n parts => .above n parts.dropLast
    | .root parts => .root parts.dropLast
  else
    match p with
    | .inside parts => .inside (parts ++ [part])
    | .above n parts => .above n (parts ++ [part])
    | .root parts => .root (parts ++ [part])

/-- The absolute path that a path stands for. -/
def ofPath (path : String) : AbsolutePath :=
  let start : AbsolutePath := if path.toList.head? == some '/' then .root [] else .inside []
  (pathParts path).foldl step start

/-- The directory that holds a path. -/
def parent (p : AbsolutePath) : AbsolutePath :=
  match p with
  | .root [] => .root []
  | _ => p.step ".."

/-- The text of a path, where `here` is that of the working directory. -/
def text (here : String) : AbsolutePath → String
  | .inside parts => String.join (here :: parts.map ("/" ++ ·))
  | .above n parts =>
    String.join (here :: List.replicate n "/.." ++ parts.map ("/" ++ ·))
  | .root [] => "/"
  | .root parts => String.join (parts.map ("/" ++ ·))

/-- Why nothing can be found at a path, as far as that can be known. -/
def failure? (d : Directory) : AbsolutePath → Option ReadFailure
  | .inside parts =>
    match d.follow parts (.inside []) with
    | .ok _ => none
    | .error e => some e
  | .above _ parts => if parts.isEmpty then none else some .notFound
  | .root parts => if parts.isEmpty then none else some .notFound

end AbsolutePath

/-- The state of watching. -/
structure Watching where
  check : Bool
  json : Bool
  directory : Directory
  /-- The watched files under their absolute paths, the latest first. -/
  files : List (AbsolutePath × String)
  cache : NameCache := {}

/-- A change to a file. -/
inductive Change where
  | write (path text : String)
  | remove (path : String)
  deriving DecidableEq, Repr, Inhabited

namespace Watching

/-- The first directory of the watched files that cannot be watched, and why. -/
def unwatchable? (d : Directory) (files : List String) : Option (AbsolutePath × ReadFailure) :=
  files.findSome? fun f =>
    let p := (AbsolutePath.ofPath f).parent
    (p.failure? d).map (p, ·)

/-- Starts watching.  Gives the first report, or the message of a failure. -/
def start (here : String) (cancelled check json : Bool) (d : Directory) (files : List String)
    (timestamp : String) : Except String (Watching × String) :=
  match unwatchable? d files with
  | some (p, failure) => .error ("watch " ++ p.text here ++ ": " ++ failure.reason)
  | none => do
    let (results, cache) ← lowerUnlessCancelled cancelled check d files
    let known := (files.map fun f => (AbsolutePath.ofPath f, f)).reverse
    return (⟨check, json, d, known, cache⟩, report json timestamp results)

/-- Takes a change.  There is a report if a watched file was written. -/
def take (w : Watching) (change : Change) (timestamp : String) : Watching × Option String :=
  match change with
  | .remove path =>
    match AbsolutePath.ofPath path with
    | .inside parts => ({ w with directory := w.directory.remove parts }, none)
    | _ => (w, none)
  | .write path text =>
    match AbsolutePath.ofPath path with
    | .inside parts =>
      let w := { w with directory := w.directory.write parts text }
      match w.files.lookup (.inside parts) with
      | none => (w, none)
      | some file =>
        let (result, cache) := lowerText w.check file (w.directory.read file) w.cache
        ({ w with cache := cache }, some (report w.json timestamp [result]))
    | _ => (w, none)

/-- Takes changes one after the other and gives the reports they cause. -/
def takeAll (w : Watching) (timestamp : String) : List Change → List String
  | [] => []
  | change :: changes =>
    let (w, r) := w.take change timestamp
    r.toList ++ w.takeAll timestamp changes

end Watching

end DefaultLowering.Command
