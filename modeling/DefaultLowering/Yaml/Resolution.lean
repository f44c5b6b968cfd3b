import DefaultLowering.Yaml.Scalar

/-!
# What a plain scalar denotes

The text of a plain scalar decides its tag: an integer, a floating point number, a truth value,
nothing, a point in time, the merge key, or else a string.

A number is an integer if it fits into 64 bits, with or without a sign; a longer one is a floating
point number.  A floating point number must be finite once rounded to double precision.
-/

namespace DefaultLowering.Yaml

/-! ## Integers -/

/-- The value of a digit in bases up to 36. -/
def digitValue (c : Char) : Option Nat :=
  if c.isDigit then some (c.toNat - '0'.toNat)
  else if 'a' ≤ c && c ≤ 'z' then some (c.toNat - 'a'.toNat + 10)
  else if 'A' ≤ c && c ≤ 'Z' then some (c.toNat - 'A'.toNat + 10)
  else none

/-- The number written by digits of a base. -/
def numberInBase (base : Nat) (cs : List Char) : Option Nat :=
  cs.foldlM (fun n c => (digitValue c).bind fun d => if d < base then some (n * base + d) else none) 0

/-- The number written without a sign.  The start of the text gives the base: `0b`, `0o` or `0`, `0x`. -/
def unsignedNumber : List Char → Option Nat
  | [] => none
  | ['0'] => some 0
  | '0' :: x :: d :: cs =>
    if x == 'b' || x == 'B' then numberInBase 2 (d :: cs)
    else if x == 'o' || x == 'O' then numberInBase 8 (d :: cs)
    else if x == 'x' || x == 'X' then numberInBase 16 (d :: cs)
    else numberInBase 8 (x :: d :: cs)
  | '0' :: cs => numberInBase 8 cs
  | cs => numberInBase 10 cs

/-- The number is there and at most `limit`. -/
def fits (limit : Nat) (n : Option Nat) : Bool :=
  (n.map fun n => decide (n ≤ limit)).getD false

/-- The greatest signed number of 64 bits. -/
def maxInt64 : Nat := 0x7fffffffffffffff

/-- The greatest unsigned number of 64 bits. -/
def maxUInt64 : Nat := 0xffffffffffffffff

/-- The digits behind `0b` or `0o` have a sign of their own. -/
def isInnerSigned : List Char → Bool
  | '0' :: x :: s :: d :: cs =>
    let base := if x == 'b' then 2 else 8
    (x == 'b' || x == 'o') &&
      ((s == '-' && fits maxInt64.succ (numberInBase base (d :: cs)))
        || (s == '+' && fits maxInt64 (numberInBase base (d :: cs))))
  | _ => false

/-- The text is an integer of 64 bits: signed, or unsigned if it has no sign. -/
def isInteger (cs : List Char) : Bool :=
  match cs with
  | '-' :: r => fits maxInt64.succ (unsignedNumber r)
  | '+' :: r => fits maxInt64 (unsignedNumber r)
  | _ => fits maxUInt64 (unsignedNumber cs) || isInnerSigned cs

/-! ## Floating point numbers -/

/-- The parts of a decimal fraction. -/
structure DecimalParts where
  /-- All digits, without the point. -/
  digits : List Char
  /-- The number of digits behind the point. -/
  places : Nat
  exponent : Int
  deriving Inhabited

/-- The number written by decimal digits. -/
def decimalNumber (cs : List Char) : Nat :=
  cs.foldl (fun n c => n * 10 + (c.toNat - '0'.toNat)) 0

/-- Reads the exponent part of a fraction, which is either nothing or `e` and a whole number. -/
def readExponent : List Char → Option Int
  | [] => some 0
  | e :: cs =>
    if e != 'e' && e != 'E' then none
    else
      let (sign, ds) : Int × List Char := match cs with
        | '-' :: r => (-1, r)
        | '+' :: r => (1, r)
        | r => (1, r)
      if ds.isEmpty || !ds.all Char.isDigit then none else some (sign * decimalNumber ds)

/-- Reads a decimal fraction without a sign.  It has a digit before the point, or one behind it. -/
def readDecimal (cs : List Char) : Option DecimalParts :=
  let whole := cs.takeWhile Char.isDigit
  let rest := cs.drop whole.length
  let (places, rest) : List Char × List Char := match rest with
    | '.' :: r => (r.takeWhile Char.isDigit, r.dropWhile Char.isDigit)
    | r => ([], r)
  if whole.isEmpty && places.isEmpty then none
  else (readExponent rest).map fun e => ⟨whole ++ places, places.length, e⟩

/-- The fraction is below the least number that rounds to infinity, `2 ^ 1024 - 2 ^ 970`. -/
def DecimalParts.isFinite (d : DecimalParts) : Bool :=
  let limit := Nat.pow 2 1024 - Nat.pow 2 970
  let digits := d.digits.dropWhile (· == '0')
  let scale := d.exponent - d.places
  if digits.isEmpty || digits.length + scale < 0 then true
  else if digits.length + scale > 400 then false
  else if scale ≥ 0 then decide (decimalNumber digits * Nat.pow 10 scale.toNat < limit)
  else decide (decimalNumber digits < limit * Nat.pow 10 (-scale).toNat)

/-- Every underscore stands between two digits. -/
def separatesDigits (before : Char) : List Char → Bool
  | [] => true
  | '_' :: cs => before.isDigit && (cs.head?.map Char.isDigit).getD false && separatesDigits '_' cs
  | c :: cs => separatesDigits c cs

/-- Takes a sign off. -/
def unsigned : List Char → List Char
  | '-' :: r => r
  | '+' :: r => r
  | r => r

/-- The text is a finite decimal fraction with an optional sign. -/
def isFraction (cs : List Char) : Bool :=
  ((readDecimal (unsigned cs)).map DecimalParts.isFinite).getD false

/-! ## Points in time -/

/-- The number of days of a month. -/
def daysIn (year month : Nat) : Nat :=
  if month == 2 then
    if year % 4 == 0 && (year % 100 != 0 || year % 400 == 0) then 29 else 28
  else if [4, 6, 9, 11].contains month then 30
  else 31

/-- Reads one or two digits. -/
def shortNumber : List Char → Option (Nat × List Char)
  | a :: b :: cs =>
    if !a.isDigit then none
    else if b.isDigit then some (decimalNumber [a, b], cs)
    else some (decimalNumber [a], b :: cs)
  | [a] => if a.isDigit then some (decimalNumber [a], []) else none
  | [] => none

/-- Reads a given character. -/
def expectChar (c : Char) : List Char → Option (List Char)
  | x :: cs => if x == c then some cs else none
  | [] => none

/-- Reads exactly two digits. -/
def twoDigits : List Char → Option (Nat × List Char)
  | a :: b :: cs => if a.isDigit && b.isDigit then some (decimalNumber [a, b], cs) else none
  | _ => none

/-- Reads a date: a year of four digits, a month and a day. -/
def readDate (cs : List Char) : Option (List Char) := do
  let year := cs.take 4
  if year.length < 4 || !year.all Char.isDigit then none
  let cs ← expectChar '-' (cs.drop 4)
  let (month, cs) ← shortNumber cs
  let cs ← expectChar '-' cs
  let (day, cs) ← shortNumber cs
  if month < 1 || month > 12 || day < 1 || day > daysIn (decimalNumber year) month then none
  else some cs

/-- Reads a time of the day, whose seconds may have a fraction. -/
def readTime (cs : List Char) : Option (List Char) := do
  let (hour, cs) ← shortNumber cs
  let cs ← expectChar ':' cs
  let (minute, cs) ← shortNumber cs
  let cs ← expectChar ':' cs
  let (second, cs) ← shortNumber cs
  if hour > 23 || minute > 59 || second > 59 then none
  else
    match cs with
    | p :: d :: r =>
      if (p == '.' || p == ',') && d.isDigit then some (r.dropWhile Char.isDigit) else some cs
    | _ => some cs

/-- Reads a time zone: `Z`, or a sign with hours and minutes. -/
def readZone : List Char → Option (List Char)
  | 'Z' :: cs => some cs
  | s :: cs =>
    if s != '+' && s != '-' then none
    else do
      let (hour, cs) ← twoDigits cs
      let cs ← expectChar ':' cs
      let (minute, cs) ← twoDigits cs
      if hour > 24 || minute > 60 then none else some cs
  | [] => none

/-- The text is a date, or a date and a time with a zone behind `T` or `t`, or without one behind
blanks. -/
def isTimestamp (cs : List Char) : Bool :=
  match readDate cs with
  | none => false
  | some [] => true
  | some (c :: r) =>
    if c == 'T' || c == 't' then ((readTime r).bind readZone) == some []
    else if c == ' ' then readTime (r.dropWhile (· == ' ')) == some []
    else false

/-! ## Tags -/

/-- The tags of plain scalars. -/
def strTag : String := "!!str"
def intTag : String := "!!int"
def floatTag : String := "!!float"
def boolTag : String := "!!bool"
def nullTag : String := "!!null"
def timestampTag : String := "!!timestamp"
def mergeTag : String := "!!merge"
def binaryTag : String := "!!binary"
def mapTag : String := "!!map"
def seqTag : String := "!!seq"

/-- The spellings of the truth values. -/
def truthValues : List (String × Bool) :=
  [("true", true), ("True", true), ("TRUE", true),
   ("false", false), ("False", false), ("FALSE", false)]

/-- The spellings of nothing. -/
def nullWords : List String := ["", "~", "null", "Null", "NULL"]

/-- The spellings of infinity, and of what is no number. -/
def specialFloats : List String :=
  [".nan", ".NaN", ".NAN", ".inf", ".Inf", ".INF", "+.inf", "+.Inf", "+.INF", "-.inf", "-.Inf", "-.INF"]

/-- The tag of a number. -/
def numberTag (text : String) : Option String :=
  let cs := text.toList
  let plain := cs.filter (· != '_')
  match cs with
  | '.' :: r => if separatesDigits '.' r && isFraction plain then some floatTag else none
  | c :: _ =>
    if c == '+' || c == '-' || c.isDigit then
      if isInteger plain then some intTag
      else if isFraction plain then some floatTag
      else none
    else none
  | [] => none

/-- The tag that a scalar has by its text.  Points in time are told from strings only on demand. -/
def resolvedTag (times : Bool) (text : String) : String :=
  if nullWords.contains text then nullTag
  else if (truthValues.lookup text).isSome then boolTag
  else if specialFloats.contains text then floatTag
  else if times && isTimestamp text.toList then timestampTag
  else (numberTag text).getD strTag

end DefaultLowering.Yaml
