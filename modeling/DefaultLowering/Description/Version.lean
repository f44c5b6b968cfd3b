import DefaultLowering.Text.Quoted

/-!
# Format versions

A description names the version of the format it is written in: one to three numbers, of which the
missing ones are zero, an optional pre-release part behind `-`, and optional metadata behind `+`.  Every
version with major number one is supported, except pre-releases.
-/

namespace DefaultLowering

/-- A version. -/
structure Version where
  major : Nat
  minor : Nat
  patch : Nat
  prerelease : String
  metadata : String
  deriving DecidableEq, Repr, Inhabited

/-- Why a text is no version. -/
inductive VersionError where
  | malformed
  /-- A number that does not fit into 64 bits. -/
  | outOfRange (digits : String)
  /-- A number of the pre-release part with a zero in front. -/
  | leadingZero
  deriving DecidableEq, Repr, Inhabited

/-- The wording of an error. -/
def VersionError.message : VersionError → String
  | .malformed => "Invalid Semantic Version"
  | .outOfRange digits =>
    "Error parsing version segment: strconv.ParseUint: parsing " ++ Text.quoted digits
      ++ ": value out of range"
  | .leadingZero => "Version segment starts with 0"

namespace Version

/-- The text of a version, with all three numbers. -/
def text (v : Version) : String :=
  toString v.major ++ "." ++ toString v.minor ++ "." ++ toString v.patch
    ++ (if v.prerelease.isEmpty then "" else "-" ++ v.prerelease)
    ++ (if v.metadata.isEmpty then "" else "+" ++ v.metadata)

/-- The versions that can be read. -/
def isSupported (v : Version) : Bool :=
  v.major == 1 && v.prerelease.isEmpty

/-! ## Reading -/

/-- Characters of the parts behind the numbers. -/
def isPartChar (c : Char) : Bool := c.isAlphanum || c == '-'

/-- The parts between dots. -/
def parts (cs : List Char) : List (List Char) := cs.splitOn '.'

/-- Parts between dots, none of them empty. -/
def areParts (cs : List Char) : Bool :=
  (parts cs).all fun p => !p.isEmpty && p.all isPartChar

/-- Splits off the digits at the start. -/
def digits (cs : List Char) : List Char × List Char :=
  (cs.takeWhile Char.isDigit, cs.dropWhile Char.isDigit)

/-- Splits off a dot and the digits behind it; a dot without digits is left alone. -/
def segment (cs : List Char) : List Char × List Char :=
  match cs with
  | '.' :: r => if (digits r).1.isEmpty then ([], cs) else digits r
  | _ => ([], cs)

/-- Splits off the part that starts with the given character. -/
def tail (mark : Char) (ends : Char → Bool) (cs : List Char) : Option (List Char × List Char) :=
  match cs with
  | c :: r =>
    if c == mark then
      let part := r.takeWhile fun x => !ends x
      if areParts part then some (part, r.drop part.length) else none
    else some ([], cs)
  | [] => some ([], [])

/-- The number that digits write; no digits write zero. -/
def number (ds : List Char) : Except VersionError Nat :=
  let n := ds.foldl (fun n d => n * 10 + (d.toNat - '0'.toNat)) 0
  if n ≤ 0xffffffffffffffff then .ok n else .error (.outOfRange (String.ofList ds))

/-- The part is a number with a zero in front. -/
def hasLeadingZero (part : List Char) : Bool :=
  part.all Char.isDigit && part.length > 1 && part.head? == some '0'

/-- Reads a version. -/
def parse (s : String) : Except VersionError Version := do
  let cs := match s.toList with
    | 'v' :: cs => cs
    | cs => cs
  let (major, cs) := digits cs
  let (minor, cs) := segment cs
  let (patch, cs) := segment cs
  match tail '-' (· == '+') cs with
  | none => throw .malformed
  | some (pre, cs) =>
    match tail '+' (fun _ => false) cs with
    | none => throw .malformed
    | some (extra, rest) =>
      if major.isEmpty || !rest.isEmpty then throw .malformed
      let major ← number major
      let minor ← number minor
      let patch ← number patch
      if (parts pre).any hasLeadingZero then throw .leadingZero
      return ⟨major, minor, patch, String.ofList pre, String.ofList extra⟩

end Version

/-- Why a version is not accepted. -/
inductive VersionProblem where
  | missing
  | unreadable (text : String) (cause : VersionError)
  | unsupported (version : Version)
  deriving DecidableEq, Repr, Inhabited

/-- The wording of a problem. -/
def VersionProblem.message : VersionProblem → String
  | .missing => "missing version"
  | .unreadable text cause => Text.quoted text ++ ": " ++ cause.message
  | .unsupported version => version.text ++ " does not satisfy ^1.0"

/-- Checks the version of a description. -/
def requireVersion (s : String) : Except VersionProblem Unit :=
  if s.isEmpty then .error .missing
  else
    match Version.parse s with
    | .error e => .error (.unreadable s e)
    | .ok v => if v.isSupported then .ok () else .error (.unsupported v)

end DefaultLowering
