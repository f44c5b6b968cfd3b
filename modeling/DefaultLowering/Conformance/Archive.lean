import DefaultLowering.Text.Basic

/-!
# Text archives

An archive is a text that holds several files: a comment, and then every file behind a line
`-- name --`.  Blanks around the name do not count, and a line whose name would be empty is no such
line.  The last line of a part gets its line feed if it has none.
-/

namespace DefaultLowering.Conformance

/-- A file of an archive.  If the archive ends in the line that names the file, the file has no data, as
opposed to empty data. -/
structure ArchiveFile where
  name : String
  data : Option String
  deriving DecidableEq, Repr, Inhabited

/-- An archive. -/
structure Archive where
  comment : String
  files : List ArchiveFile
  deriving DecidableEq, Repr, Inhabited

namespace Archive

/-- The text up to the first line feed, and the text behind it, if there is one. -/
def splitLine (cs : List Char) : List Char × Option (List Char) :=
  match cs.dropWhile (· != '\n') with
  | [] => (cs.takeWhile (· != '\n'), none)
  | _ :: rest => (cs.takeWhile (· != '\n'), some rest)

/-- A line without the carriage return before its line feed. -/
def withoutReturn (line : List Char) : List Char :=
  if line.getLast? == some '\r' then line.dropLast else line

/-- The name that a line gives to the file behind it. -/
def markedName? (line : List Char) : Option String :=
  if ['-', '-', ' '].isPrefixOf line && [' ', '-', '-'].isSuffixOf line && line.length ≥ 6 then
    let name := Text.trimChars ((line.drop 3).take (line.length - 6))
    if name.isEmpty then none else some (String.ofList name)
  else none

/-- The text with a line feed at its end, unless it is empty. -/
def endLine (cs : List Char) : List Char :=
  if cs.isEmpty || cs.getLast? == some '\n' then cs else cs ++ ['\n']

/-- The part of a text before the first line that names a file, and what that line and the text behind
it are.  `before` holds the lines in front. -/
def splitPart (before : List Char) (cs : List Char) :
    List Char × Option (String × Option (List Char)) :=
  match _h : splitLine cs with
  | (line, none) =>
    match markedName? line with
    | some name => (before, some (name, none))
    | none => (endLine (before ++ line), none)
  | (line, some rest) =>
    match markedName? (withoutReturn line) with
    | some name => (before, some (name, some rest))
    | none =>
      if _h : rest.length < cs.length then splitPart (before ++ line ++ ['\n']) rest
      else (before, none)
  termination_by cs.length

/-- The files behind a line that names the first of them. -/
def readFiles (name : String) (data : Option (List Char)) : List ArchiveFile :=
  match data with
  | none => [⟨name, none⟩]
  | some cs =>
    match splitPart [] cs with
    | (text, none) => [⟨name, some (String.ofList text)⟩]
    | (text, some (next, none)) => [⟨name, some (String.ofList text)⟩, ⟨next, none⟩]
    | (text, some (next, some rest)) =>
      if _h : rest.length < cs.length then
        ⟨name, some (String.ofList text)⟩ :: readFiles next (some rest)
      else [⟨name, some (String.ofList text)⟩]
  termination_by (data.map List.length).getD 0

/-- Reads an archive. -/
def parse (text : String) : Archive :=
  match splitPart [] text.toList with
  | (comment, none) => ⟨String.ofList comment, []⟩
  | (comment, some (name, data)) => ⟨String.ofList comment, readFiles name data⟩

end Archive

end DefaultLowering.Conformance
