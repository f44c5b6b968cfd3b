import DefaultLowering.Fragment.Token

/-!
# Cutting a fragment into tokens

`extent` looks at the first character of the remaining text and says how far the lexeme that starts
there reaches: its sort (none for blanks and comments) and how many further characters belong to it.
`lexFrom` cuts lexeme after lexeme.  A lexeme has at least its first character, so the remaining text
shrinks with every step.
-/

namespace DefaultLowering.Fragment

/-! ## Ends of delimited lexemes -/

/-- How many characters there are up to and including the first `*/`. -/
def commentEnd : List Char → Option Nat
  | '*' :: '/' :: _ => some 2
  | _ :: cs => (commentEnd cs).map (· + 1)
  | [] => none

/-- How many characters there are up to and including the first `quote` that no backslash
    escapes. -/
def stringEnd (quote : Char) : List Char → Option Nat
  | [] => none
  | c :: cs =>
    if c = quote then some 1
    else if c = '\\' then
      match cs with
      | [] => none
      | _ :: cs => (stringEnd quote cs).map (· + 2)
    else (stringEnd quote cs).map (· + 1)

/-- How many characters stand before the first `::`. -/
def separatorIndex : List Char → Option Nat
  | ':' :: ':' :: _ => some 0
  | _ :: cs => (separatorIndex cs).map (· + 1)
  | [] => none

/-- How many characters there are up to and including the first closing parenthesis. -/
def signatureEnd : List Char → Option Nat
  | [] => none
  | c :: cs => if c = ')' then some 1 else (signatureEnd cs).map (· + 1)

/-! ## Lexemes -/

/-- A lexeme without its first character: its sort, none when it leaves no token, and its length. -/
structure Extent where
  kind : Option TokenKind
  extra : Nat
  deriving DecidableEq, Repr

/-- How far a member reference reaches, given the text after its `@`.  Errors are located relative
    to the `@`. -/
def memberExtent (cs : List Char) : Except SyntaxError Extent :=
  match separatorIndex cs with
  | none => .error ⟨0, .memberWithoutSeparator⟩
  | some k =>
    if k = 0 then .error ⟨0, .memberWithoutType⟩
    else if ¬ (cs.take k).all isTypePart then
      .error ⟨0, .invalidMemberType (String.ofList (cs.take k))⟩
    else
      let name := (cs.drop (k + 2)).takeWhile continuesIdent
      if name.isEmpty then .error ⟨0, .memberWithoutName⟩
      else
        let plain := k + 2 + name.length
        match cs.drop plain with
        | '(' :: signature =>
          match signatureEnd signature with
          | none => .error ⟨1 + plain, .unterminatedSignature⟩
          | some n => .ok ⟨some .member, plain + 1 + n⟩
        | _ => .ok ⟨some .member, plain⟩

/-- The longest operator at the start of the text. -/
def operatorAt (cs : List Char) : Option String :=
  operators.find? fun op => op.toList.isPrefixOf cs

/-- How far the lexeme reaches that starts with `c` and goes on into `cs`.  Errors are located
    relative to `c`. -/
def extent (c : Char) (cs : List Char) : Except SyntaxError Extent :=
  if isBlank c then .ok ⟨none, 0⟩
  else if c = '/' ∧ cs.head? = some '/' then
    .ok ⟨none, (cs.takeWhile (· ≠ '\n')).length⟩
  else if c = '/' ∧ cs.head? = some '*' then
    match commentEnd cs.tail with
    | none => .error ⟨0, .unterminatedComment⟩
    | some n => .ok ⟨none, 1 + n⟩
  else if startsIdent c then .ok ⟨some .ident, (cs.takeWhile continuesIdent).length⟩
  else if c = '@' then memberExtent cs
  else if isDigit c then .ok ⟨some .number, (cs.takeWhile isNumberPart).length⟩
  else if c = '"' ∨ c = '\x27' then
    match stringEnd c cs with
    | none => .error ⟨0, .unterminatedString⟩
    | some n => .ok ⟨some .string, n⟩
  else
    match operatorAt (c :: cs) with
    | none => .error ⟨0, .unexpectedByte (Text.leadByte c)⟩
    | some op => .ok ⟨some .operator, op.length - 1⟩

/-! ## The token list -/

/-- The tokens of a text that starts at byte `offset`. -/
def lexFrom (offset : Nat) : List Char → Except SyntaxError (List Token)
  | [] => .ok []
  | c :: cs =>
    match extent c cs with
    | .error e => .error { e with offset := offset + e.offset }
    | .ok ⟨kind, extra⟩ =>
      let lexeme := c :: cs.take extra
      match lexFrom (offset + Text.byteLength lexeme) (cs.drop extra) with
      | .error e => .error e
      | .ok tokens =>
        match kind with
        | none => .ok tokens
        | some kind => .ok (⟨kind, String.ofList lexeme, offset⟩ :: tokens)
  termination_by cs => cs.length
  decreasing_by simp only [List.length_drop, List.length_cons]; omega

/-- A fragment cut into tokens, with the offset of its end. -/
structure TokenStream where
  tokens : List Token
  stop : Nat
  deriving DecidableEq, Repr

/-- Cuts the whole source. -/
def lex (source : String) : Except SyntaxError TokenStream :=
  match lexFrom 0 source.toList with
  | .error e => .error e
  | .ok tokens => .ok ⟨tokens, Text.byteLength source.toList⟩

end DefaultLowering.Fragment
