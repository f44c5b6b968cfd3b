/-!
# Reading a YAML text

The text is read from left to right.  A `Cursor` holds what is left of it, the place reached, and
whether anything but blanks was read since the last line break.

Five characters end a line, and a carriage return with a line feed after it ends one line.
-/

namespace DefaultLowering.Yaml

/-! ## Characters -/

/-- Characters that may occur in a document. -/
def isReadable (c : Char) : Bool :=
  let n := c.toNat
  n == 0x09 || n == 0x0a || n == 0x0d || (0x20 ≤ n && n ≤ 0x7e) || n == 0x85
    || (0xa0 ≤ n && n ≤ 0xd7ff) || (0xe000 ≤ n && n ≤ 0xfffd) || 0x10000 ≤ n

/-- Characters that end a line. -/
def isBreak (c : Char) : Bool :=
  c == '\n' || c == '\r' || c == '\u0085' || c == '\u2028' || c == '\u2029'

/-- A space or a tab. -/
def isBlank (c : Char) : Bool :=
  c == ' ' || c == '\t'

/-- Characters of anchors, handles and directive names. -/
def isWordChar (c : Char) : Bool :=
  c.isAlphanum || c == '_' || c == '-'

/-- The text is at its end, at a blank or at a line break. -/
def atGap : List Char → Bool
  | [] => true
  | c :: _ => isBlank c || isBreak c

/-- The text starts with one of the marks between documents. -/
def atDocumentMark : List Char → Bool
  | '-' :: '-' :: '-' :: rest => atGap rest
  | '.' :: '.' :: '.' :: rest => atGap rest
  | _ => false

/-! ## Places -/

/-- A place in the text.  All three numbers start at zero. -/
structure Mark where
  index : Nat
  line : Nat
  column : Nat
  deriving DecidableEq, Repr, Inhabited

/-- The text that is left. -/
structure Cursor where
  rest : List Char
  mark : Mark
  /-- Only blanks were read since the last line break. -/
  fresh : Bool
  /-- The number of characters left. -/
  size : Nat
  size_eq : size = rest.length

namespace Cursor

/-- The cursor at the start of a text. -/
def start (text : List Char) : Cursor := ⟨text, ⟨0, 0, 0⟩, false, text.length, rfl⟩

instance : Inhabited Cursor := ⟨start []⟩

/-- Passes `n` characters of the line. -/
def skip (c : Cursor) (n : Nat) : Cursor :=
  { rest := c.rest.drop n
    mark := ⟨c.mark.index + n, c.mark.line, c.mark.column + n⟩
    fresh := c.fresh && (c.rest.take n).all isBlank
    size := c.size - n
    size_eq := by rw [List.length_drop, c.size_eq] }

/-- Passes the characters with a property, none of which ends a line. -/
def skipWhile (c : Cursor) (p : Char → Bool) : Cursor :=
  c.skip (c.rest.takeWhile p).length

/-- Passes the blanks. -/
def skipBlanks (c : Cursor) : Cursor := c.skipWhile isBlank

/-- Passes the rest of the line. -/
def skipLine (c : Cursor) : Cursor := c.skipWhile fun x => !isBreak x

/-- The number of characters of the line break at the start of a text. -/
def breakLength : List Char → Nat
  | '\r' :: '\n' :: _ => 2
  | c :: _ => if isBreak c then 1 else 0
  | [] => 0

/-- Passes a line break, if there is one. -/
def skipBreak (c : Cursor) : Cursor :=
  let n := breakLength c.rest
  if n = 0 then c
  else
    { rest := c.rest.drop n
      mark := ⟨c.mark.index + n, c.mark.line + 1, 0⟩
      fresh := true
      size := c.size - n
      size_eq := by rw [List.length_drop, c.size_eq] }

/-- What the line break stands for in a scalar: the two Unicode separators for themselves, every
other one for a line feed. -/
def breakText (c : Cursor) : List Char :=
  match c.rest with
  | [] => []
  | x :: _ => if x == '\u2028' || x == '\u2029' then [x] else if isBreak x then ['\n'] else []

/-- The next character has a property. -/
def sees (c : Cursor) (p : Char → Bool) : Bool :=
  match c.rest with
  | [] => false
  | x :: _ => p x

/-- The next character is the given one. -/
def seesChar (c : Cursor) (x : Char) : Bool := c.sees (· == x)

/-- The text is at its end. -/
def atEnd (c : Cursor) : Bool := c.rest.isEmpty

/-- The line is at its end. -/
def atLineEnd (c : Cursor) : Bool := c.atEnd || c.sees isBreak

theorem size_skip (c : Cursor) (n : Nat) : (c.skip n).size = c.size - n := rfl

theorem size_skip_one_lt {c : Cursor} {x : Char} {r : List Char} (h : c.rest = x :: r) :
    (c.skip 1).size < c.size := by
  have hlen : c.size = r.length + 1 := by rw [c.size_eq, h]; rfl
  rw [size_skip]
  omega

theorem size_skipBreak_lt {c : Cursor} {x : Char} {r : List Char} (h : c.rest = x :: r)
    (hx : isBreak x = true) : c.skipBreak.size < c.size := by
  have hpos : 0 < breakLength c.rest := by
    rw [h]
    unfold breakLength
    split <;> simp_all
  have hlen : c.size = r.length + 1 := by rw [c.size_eq, h]; rfl
  have hne : breakLength c.rest ≠ 0 := by omega
  simp only [skipBreak, hne, if_false]
  omega

end Cursor

end DefaultLowering.Yaml
