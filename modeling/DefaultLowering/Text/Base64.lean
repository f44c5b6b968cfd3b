import DefaultLowering.Text.Basic

/-!
# Base 64

Every four characters stand for three bytes; the last group may stand for fewer and is then filled up
with `=`.  Line breaks between the characters do not count.
-/

namespace DefaultLowering.Text

/-- The value of a character. -/
def sextet (c : Char) : Option Nat :=
  if 'A' ≤ c && c ≤ 'Z' then some (c.toNat - 'A'.toNat)
  else if 'a' ≤ c && c ≤ 'z' then some (c.toNat - 'a'.toNat + 26)
  else if c.isDigit then some (c.toNat - '0'.toNat + 52)
  else if c == '+' then some 62
  else if c == '/' then some 63
  else none

/-- The bytes of whole groups of characters. -/
def base64Groups : List Char → Option (List Nat)
  | [] => some []
  | [a, b, '=', '='] => do
    let a ← sextet a
    let b ← sextet b
    return [a * 4 + b / 16]
  | [a, b, c, '='] => do
    let a ← sextet a
    let b ← sextet b
    let c ← sextet c
    return [a * 4 + b / 16, b % 16 * 16 + c / 4]
  | a :: b :: c :: d :: rest => do
    let a ← sextet a
    let b ← sextet b
    let c ← sextet c
    let d ← sextet d
    let more ← base64Groups rest
    return (a * 4 + b / 16) :: (b % 16 * 16 + c / 4) :: (c % 4 * 64 + d) :: more
  | _ => none

/-- The text whose bytes are written in base 64. -/
def ofBase64 (s : String) : Option String :=
  (base64Groups (s.toList.filter fun c => c != '\n' && c != '\r')).map fun bs =>
    String.ofList (ofBytes bs)

end DefaultLowering.Text
