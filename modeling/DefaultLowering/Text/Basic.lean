/-!
# Measures, white space and parts of text

Offsets into source text count bytes of its UTF-8 form, while the text itself is a list of
characters.  White space is what is left out when text is trimmed: the ASCII controls and the space,
the next-line control, and the Unicode spaces and separators.
-/

namespace DefaultLowering.Text

/-! ## Bytes -/

/-- How many bytes the characters take. -/
def byteLength : List Char → Nat
  | [] => 0
  | c :: cs => c.utf8Size + byteLength cs

@[simp] theorem byteLength_nil : byteLength [] = 0 := rfl

@[simp] theorem byteLength_cons (c : Char) (cs : List Char) :
    byteLength (c :: cs) = c.utf8Size + byteLength cs := rfl

theorem byteLength_append (xs ys : List Char) :
    byteLength (xs ++ ys) = byteLength xs + byteLength ys := by
  induction xs with
  | nil => simp
  | cons c cs ih => simp [ih, Nat.add_assoc]

/-- The first byte of a character. -/
def leadByte (c : Char) : Nat :=
  let n := c.toNat
  if n < 0x80 then n
  else if n < 0x800 then 0xc0 + n / 0x40
  else if n < 0x10000 then 0xe0 + n / 0x1000
  else 0xf0 + n / 0x40000

/-- All bytes of a character. -/
def charBytes (c : Char) : List Nat :=
  let n := c.toNat
  let tail (k : Nat) : Nat := 0x80 + (n / k) % 0x40
  if n < 0x80 then [n]
  else if n < 0x800 then [leadByte c, tail 1]
  else if n < 0x10000 then [leadByte c, tail 0x40, tail 1]
  else [leadByte c, tail 0x1000, tail 0x40, tail 1]

/-- All bytes of a text. -/
def bytes (s : String) : List Nat :=
  s.toList.flatMap charBytes

/-- The characters in the first `n` bytes.  Every byte of a character that is cut off in the middle
becomes the replacement character. -/
def firstBytes : (n : Nat) → List Char → List Char
  | _, [] => []
  | n, c :: cs =>
    if c.utf8Size ≤ n then c :: firstBytes (n - c.utf8Size) cs else List.replicate n '\ufffd'

/-- The character that the bytes at the start of a list encode, and how many they are.  A byte that
starts no character is the replacement character. -/
def decodeBytes : List Nat → Option (Char × Nat)
  | [] => none
  | b :: bs =>
    let more := if b / 32 == 6 then 1 else if b / 16 == 14 then 2 else if b / 8 == 30 then 3 else 0
    let tail := bs.take more
    let code := tail.foldl (fun n x => n * 64 + x % 64) (b % Nat.pow 2 (6 - more))
    let least := if more == 1 then 0x80 else if more == 2 then 0x800 else 0x10000
    if b < 0x80 then some (Char.ofNat b, 1)
    else if more > 0 && tail.length == more && tail.all (fun x => x / 64 == 2) && least ≤ code
        && code ≤ 0x10ffff && !(0xd800 ≤ code && code ≤ 0xdfff) then
      some (Char.ofNat code, more + 1)
    else some ('\ufffd', 1)

/-- The text that a list of bytes encodes. -/
def ofBytes (bs : List Nat) : List Char :=
  match decodeBytes bs with
  | none => []
  | some (c, n) =>
    if _h : (bs.drop n).length < bs.length then c :: ofBytes (bs.drop n) else [c]
  termination_by bs.length
  decreasing_by exact _h

/-! ## White space -/

/-- A white space character. -/
def isSpace (c : Char) : Bool :=
  let n := c.toNat
  (0x09 ≤ n && n ≤ 0x0d) || n == 0x20 || n == 0x85 || n == 0xa0 || n == 0x1680
    || (0x2000 ≤ n && n ≤ 0x200a) || n == 0x2028 || n == 0x2029 || n == 0x202f || n == 0x205f
    || n == 0x3000

/-- The text without white space at either end. -/
def trimChars (cs : List Char) : List Char :=
  ((cs.dropWhile isSpace).reverse.dropWhile isSpace).reverse

/-- The text without white space at either end. -/
def trim (s : String) : String := String.ofList (trimChars s.toList)

/-! ## Parts of a text -/

/-- The first list of characters occurs in the second. -/
def occursIn (part : List Char) : List Char → Bool
  | [] => part.isEmpty
  | c :: cs => part.isPrefixOf (c :: cs) || occursIn part cs

/-- The first text occurs in the second. -/
def isInfix (part whole : String) : Bool := occursIn part.toList whole.toList

end DefaultLowering.Text
