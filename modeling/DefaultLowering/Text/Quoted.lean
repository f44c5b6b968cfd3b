import DefaultLowering.Text.Printable

/-!
# Quoted text

Diagnostics show pieces of the input between quotes.  A printable character stands for itself, the
quote and the backslash are escaped by a backslash, seven control characters have a letter of their
own, and every other character is written by its number: `\x` with two hexadecimal digits below
`0x20` and for `0x7f`, else `\u` with four or `\U` with eight.
-/

namespace DefaultLowering.Text

/-- The last `width` hexadecimal digits of `n`, in lower case. -/
def hexDigits : (width n : Nat) → List Char
  | 0, _ => []
  | width + 1, n => hexDigits width (n / 16) ++ [Nat.digitChar (n % 16)]

/-- A character that is not printable, by its letter or its number. -/
def escapeNumber (c : Char) : List Char :=
  match c.toNat with
  | 0x07 => ['\\', 'a']
  | 0x08 => ['\\', 'b']
  | 0x09 => ['\\', 't']
  | 0x0a => ['\\', 'n']
  | 0x0b => ['\\', 'v']
  | 0x0c => ['\\', 'f']
  | 0x0d => ['\\', 'r']
  | n =>
    if n < 0x20 || n == 0x7f then '\\' :: 'x' :: hexDigits 2 n
    else if n < 0x10000 then '\\' :: 'u' :: hexDigits 4 n
    else '\\' :: 'U' :: hexDigits 8 n

/-- One character inside quotes of the kind `mark`. -/
def escapeChar (mark c : Char) : List Char :=
  if c == mark || c == '\\' then ['\\', c]
  else if isPrintable c then [c]
  else escapeNumber c

/-- Text between two quotes of the kind `mark`. -/
def quoteWith (mark : Char) (cs : List Char) : List Char :=
  mark :: (cs.flatMap (escapeChar mark) ++ [mark])

/-- Text between double quotes. -/
def quoted (s : String) : String :=
  String.ofList (quoteWith '"' s.toList)

/-- The character with number `n` between single quotes. -/
def quotedNumber (n : Nat) : String :=
  String.ofList (quoteWith '\x27' [Char.ofNat n])

end DefaultLowering.Text
