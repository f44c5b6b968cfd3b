import DefaultLowering.Yaml.Cursor

/-!
# Malformed text

What may be wrong with a text that is to be read as YAML, and where.
-/

namespace DefaultLowering.Yaml

/-- What is wrong. -/
inductive Flaw where
  -- characters
  | controlCharacter
  | badStart
  | tabIndentation
  | tabMargin
  -- keys, values and items
  | missingColon
  | misplacedItem
  | misplacedKey
  | misplacedValue
  -- scalars
  | unexpectedMark
  | unexpectedEnd
  | unknownEscape
  | badEscapeDigits
  | badEscapeNumber
  | zeroIndentation
  | noLineEnd
  -- anchors, tags and directives
  | badAnchor
  | noTagMark
  | noTagEnd
  | noTagText
  | badTagEscape
  | badTagLead
  | badTagTail
  | noGap
  | noBlank
  | noDirectiveName
  | badDirectiveName
  | unknownDirective
  | noVersion
  | longVersion
  | noVersionPoint
  | repeatedVersion
  | wrongVersion
  | repeatedHandle
  | unknownHandle
  -- structure
  | noDocumentStart
  | noContent
  | noItem
  | noKey
  | noSequenceEnd
  | noMappingEnd
  | unknownAnchor (name : String)
  deriving DecidableEq, Repr, Inhabited

/-- The wording of a flaw. -/
def Flaw.message : Flaw → String
  | .controlCharacter => "control characters are not allowed"
  | .badStart => "found character that cannot start any token"
  | .tabIndentation => "found a tab character where an indentation space is expected"
  | .tabMargin => "found a tab character that violates indentation"
  | .missingColon => "could not find expected \x27:\x27"
  | .misplacedItem => "block sequence entries are not allowed in this context"
  | .misplacedKey => "mapping keys are not allowed in this context"
  | .misplacedValue => "mapping values are not allowed in this context"
  | .unexpectedMark => "found unexpected document indicator"
  | .unexpectedEnd => "found unexpected end of stream"
  | .unknownEscape => "found unknown escape character"
  | .badEscapeDigits => "did not find expected hexdecimal number"
  | .badEscapeNumber => "found invalid Unicode character escape code"
  | .zeroIndentation => "found an indentation indicator equal to 0"
  | .noLineEnd => "did not find expected comment or line break"
  | .badAnchor => "did not find expected alphabetic or numeric character"
  | .noTagMark => "did not find expected \x27!\x27"
  | .noTagEnd => "did not find the expected \x27>\x27"
  | .noTagText => "did not find expected tag URI"
  | .badTagEscape => "did not find URI escaped octet"
  | .badTagLead => "found an incorrect leading UTF-8 octet"
  | .badTagTail => "found an incorrect trailing UTF-8 octet"
  | .noGap => "did not find expected whitespace or line break"
  | .noBlank => "did not find expected whitespace"
  | .noDirectiveName => "could not find expected directive name"
  | .badDirectiveName => "found unexpected non-alphabetical character"
  | .unknownDirective => "found unknown directive name"
  | .noVersion => "did not find expected version number"
  | .longVersion => "found extremely long version number"
  | .noVersionPoint => "did not find expected digit or \x27.\x27 character"
  | .repeatedVersion => "found duplicate %YAML directive"
  | .wrongVersion => "found incompatible YAML document"
  | .repeatedHandle => "found duplicate %TAG directive"
  | .unknownHandle => "found undefined tag handle"
  | .noDocumentStart => "did not find expected <document start>"
  | .noContent => "did not find expected node content"
  | .noItem => "did not find expected \x27-\x27 indicator"
  | .noKey => "did not find expected key"
  | .noSequenceEnd => "did not find expected \x27,\x27 or \x27]\x27"
  | .noMappingEnd => "did not find expected \x27,\x27 or \x27\x7d\x27"
  | .unknownAnchor name => "unknown anchor \x27" ++ name ++ "\x27 referenced"

/-- A flaw and the line that a report on it names, zero if it names none. -/
structure Malformed where
  line : Nat
  flaw : Flaw
  deriving DecidableEq, Repr, Inhabited

namespace Malformed

/-- The report. -/
def message (m : Malformed) : String :=
  "yaml: " ++ (if m.line == 0 then "" else "line " ++ toString m.line ++ ": ") ++ m.flaw.message

/-- A flaw met at `place` in something that starts at `start`.  The report names the line of the start,
unless that is the first line of the text, then that of the place. -/
def between (start place : Mark) (flaw : Flaw) : Malformed :=
  let line := if start.line == 0 then place.line else start.line
  ⟨if line == 0 then 0 else line + 1, flaw⟩

/-- A flaw of the structure.  The report names the line above: that of the surrounding collection if
that is not the first one, else that of the token. -/
def inside (start place : Nat) (flaw : Flaw) : Malformed :=
  ⟨if start ≤ 1 then place - 1 else start - 1, flaw⟩

end Malformed

/-- Reading, which ends at the first flaw. -/
abbrev Scan (α : Type) := Except Malformed α

/-- The cursor stands at a flaw of something that starts at `start`. -/
def Cursor.flaw {α : Type} (c : Cursor) (start : Mark) (flaw : Flaw) : Scan α :=
  .error (Malformed.between start c.mark flaw)

end DefaultLowering.Yaml
