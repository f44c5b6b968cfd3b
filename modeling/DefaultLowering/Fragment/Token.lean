import DefaultLowering.Text.Quoted
import DefaultLowering.Text.Basic

/-!
# Tokens of script fragments

A fragment is cut into identifiers, member references (`@Type::member` with an optional signature in
parentheses), numbers, strings and operators.  Blanks and comments separate tokens and leave none.

Offsets count bytes from the start of the fragment.
-/

namespace DefaultLowering.Fragment

/-! ## Character classes -/

/-- A character that may open an identifier. -/
def startsIdent (c : Char) : Bool :=
  c == '_' || c == '$' || ('a' ≤ c && c ≤ 'z') || ('A' ≤ c && c ≤ 'Z')

/-- A decimal digit. -/
def isDigit (c : Char) : Bool :=
  '0' ≤ c && c ≤ '9'

/-- A character that may continue an identifier. -/
def continuesIdent (c : Char) : Bool :=
  startsIdent c || isDigit c

/-- A character of the type part of a member reference. -/
def isTypePart (c : Char) : Bool :=
  continuesIdent c || c == '.'

/-- A character that continues a number. -/
def isNumberPart (c : Char) : Bool :=
  isDigit c || c == '.'

/-- A blank between tokens. -/
def isBlank (c : Char) : Bool :=
  c == ' ' || c == '\t' || c == '\n' || c == '\r'

/-! ## Tokens -/

/-- The sorts of token. -/
inductive TokenKind where
  | ident
  | member
  | number
  | string
  | operator
  deriving DecidableEq, Repr, Inhabited

/-- A token: its sort, its text, and the byte offset of its first character. -/
structure Token where
  kind : TokenKind
  text : String
  offset : Nat
  deriving DecidableEq, Repr, Inhabited

/-- The operators.  A longer one stands before each of its beginnings, so that the first match in
    this order is the longest. -/
def operators : List String :=
  ["===", "!==",
   "==", "!=", "<=", ">=", "&&", "||",
   "(", ")", "\x7b", "\x7d", ",", ";", ".", "=", "+", "-", "*", "/", "%", "<", ">", "!"]

/-! ## Errors -/

/-- Why a fragment is refused. -/
inductive SyntaxCause where
  | unterminatedComment
  | unterminatedString
  | unterminatedSignature
  | memberWithoutSeparator
  | memberWithoutType
  | memberWithoutName
  | invalidMemberType (type : String)
  /-- A byte that begins no token. -/
  | unexpectedByte (byte : Nat)
  | endOfFragment
  | expected (wanted found : String)
  | expectedVariable (found : String)
  | expectedProperty (found : String)
  | expectedParameter (found : String)
  | unexpected (found : String)
  deriving DecidableEq, Repr, Inhabited

/-- The wording of a cause. -/
def SyntaxCause.message : SyntaxCause → String
  | .unterminatedComment => "unterminated comment"
  | .unterminatedString => "unterminated string"
  | .unterminatedSignature => "unterminated member signature"
  | .memberWithoutSeparator => "member reference without '::'"
  | .memberWithoutType => "member reference without type"
  | .memberWithoutName => "member reference without member name"
  | .invalidMemberType t => "invalid type in member reference " ++ Text.quoted t
  | .unexpectedByte b => "unexpected character " ++ Text.quotedNumber b
  | .endOfFragment => "unexpected end of fragment"
  | .expected w f => "expected " ++ Text.quoted w ++ ", found " ++ Text.quoted f
  | .expectedVariable f => "expected variable name, found " ++ Text.quoted f
  | .expectedProperty f => "expected property name, found " ++ Text.quoted f
  | .expectedParameter f => "expected parameter name, found " ++ Text.quoted f
  | .unexpected f => "unexpected " ++ Text.quoted f

/-- A refused fragment: the cause and the byte offset it is reported at. -/
structure SyntaxError where
  offset : Nat
  cause : SyntaxCause
  deriving DecidableEq, Repr, Inhabited

/-- The wording of an error. -/
def SyntaxError.message (e : SyntaxError) : String :=
  "offset " ++ toString e.offset ++ ": " ++ e.cause.message

end DefaultLowering.Fragment
