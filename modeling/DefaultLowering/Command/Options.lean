import DefaultLowering.Text.Basic
import DefaultLowering.Text.Quoted

/-!
# Command line options

All options are switches: `--name` turns one on, `--name=value` sets it.  Some have a letter; letters
can be written together, and `-x=value` sets the last one.  Options and file names may be mixed freely.
Behind `--` everything is a file name, and so is a single `-`.  A group of letters that starts with
`test.` is passed over.
-/

namespace DefaultLowering.Command

/-- The switches. -/
inductive Switch where
  | verbose
  | json
  | verify
  | watch
  | profile
  | help
  | version
  deriving DecidableEq, Repr, Inhabited

namespace Switch

/-- All switches with their names. -/
def named : List (String × Switch) :=
  [("verbose", .verbose), ("json", .json), ("verify", .verify), ("watch", .watch),
   ("profile", .profile), ("help", .help), ("version", .version)]

/-- The letters of switches. -/
def lettered : List (Char × Switch) := [('v', .verbose), ('h', .help)]

/-- How diagnostics name a switch: with its letter, if it has one. -/
def shown (s : Switch) : String :=
  let name := ((named.find? fun e => e.2 == s).map (·.1)).getD ""
  match lettered.find? fun e => e.2 == s with
  | some (letter, _) => "-" ++ String.ofList [letter] ++ ", --" ++ name
  | none => "--" ++ name

end Switch

/-- The options of a command. -/
structure Options where
  verbose : Bool := false
  json : Bool := false
  verify : Bool := true
  watch : Bool := false
  profile : Bool := false
  help : Bool := false
  version : Bool := false
  files : List String := []
  deriving DecidableEq, Repr, Inhabited

/-- Sets a switch. -/
def Options.set (o : Options) (s : Switch) (value : Bool) : Options :=
  match s with
  | .verbose => { o with verbose := value }
  | .json => { o with json := value }
  | .verify => { o with verify := value }
  | .watch => { o with watch := value }
  | .profile => { o with profile := value }
  | .help => { o with help := value }
  | .version => { o with version := value }

/-- Why a command line cannot be read. -/
inductive OptionError where
  | malformed (argument : String)
  | unknownName (name : String)
  | unknownLetter (letter : Char) (letters : String)
  | badValue (value : String) (switch : Switch)
  deriving DecidableEq, Repr, Inhabited

/-- How diagnostics show a letter: by the first byte of its first byte, which is the letter itself if it
is an ASCII character. -/
def shownLetter (letter : Char) : String :=
  Text.quotedNumber (Text.leadByte (Char.ofNat (Text.leadByte letter)))

/-- The wording of an error. -/
def OptionError.message : OptionError → String
  | .malformed argument => "bad flag syntax: " ++ argument
  | .unknownName name => "unknown flag: --" ++ name
  | .unknownLetter letter letters =>
    "unknown shorthand flag: " ++ shownLetter letter ++ " in -" ++ letters
  | .badValue value switch =>
    "invalid argument " ++ Text.quoted value ++ " for " ++ Text.quoted switch.shown
      ++ " flag: strconv.ParseBool: parsing " ++ Text.quoted value ++ ": invalid syntax"

/-- The spellings of values. -/
def switchValues : List (String × Bool) :=
  ["1", "t", "T", "TRUE", "true", "True"].map (·, true)
    ++ ["0", "f", "F", "FALSE", "false", "False"].map (·, false)

namespace Options

/-- Sets a switch to a value as written. -/
def setText (o : Options) (s : Switch) (value : String) : Except OptionError Options :=
  match switchValues.lookup value with
  | some b => .ok (o.set s b)
  | none => .error (.badValue value s)

/-- Reads `--name` or `--name=value`; `cs` is the text behind the dashes. -/
def readLong (o : Options) (argument : String) (cs : List Char) : Except OptionError Options :=
  match cs with
  | '-' :: _ | '=' :: _ => .error (.malformed argument)
  | _ =>
    let name := String.ofList (cs.takeWhile (· != '='))
    match Switch.named.lookup name with
    | none => .error (.unknownName name)
    | some s =>
      match cs.dropWhile (· != '=') with
      | [] => .ok (o.set s true)
      | _ :: value => o.setText s (String.ofList value)

/-- Reads a group of letters. -/
def readLetters (o : Options) : List Char → Except OptionError Options
  | [] => .ok o
  | c :: cs =>
    if "test.".toList.isPrefixOf (c :: cs) then .ok o
    else
      match Switch.lettered.lookup c with
      | none => .error (.unknownLetter c (String.ofList (c :: cs)))
      | some s =>
        match cs with
        | '=' :: d :: value => o.setText s (String.ofList (d :: value))
        | _ => readLetters (o.set s true) cs

/-- Reads arguments one by one. -/
def readArguments (o : Options) : List String → Except OptionError Options
  | [] => .ok o
  | argument :: rest =>
    match argument.toList with
    | ['-', '-'] => .ok { o with files := o.files ++ rest }
    | '-' :: '-' :: cs => do
      let o ← o.readLong argument cs
      o.readArguments rest
    | '-' :: c :: cs => do
      let o ← o.readLetters (c :: cs)
      o.readArguments rest
    | _ => readArguments { o with files := o.files ++ [argument] } rest

/-- Reads a command line. -/
def parse (arguments : List String) : Except OptionError Options :=
  readArguments {} arguments

end Options

end DefaultLowering.Command
