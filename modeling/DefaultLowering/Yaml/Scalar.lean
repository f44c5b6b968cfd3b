import DefaultLowering.Yaml.Malformed

/-!
# Scalars

The five ways to write a scalar: plain, in single quotes, in double quotes, as a literal block and as
a folded block.  Every reader here starts at the first character of the scalar and gives the text with
the cursor behind it.
-/

namespace DefaultLowering.Yaml

/-! ## Gaps between the words of a scalar -/

/-- Blanks and line breaks between two words. -/
structure Gap where
  /-- Blanks before the first line break. -/
  blanks : List Char := []
  /-- The first line break. -/
  first : List Char := []
  /-- The other line breaks. -/
  more : List Char := []
  /-- A line has ended. -/
  broken : Bool := false
  deriving Inhabited

/-- What a gap stands for: blanks for themselves, one line break for a space, further ones for
themselves. -/
def Gap.text (g : Gap) : List Char :=
  if !g.broken then g.blanks
  else if g.first == ['\n'] then (if g.more.isEmpty then [' '] else g.more)
  else g.first ++ g.more

/-- Reads the blanks and line breaks at the cursor.  In a plain scalar, which starts at `start`, a tab may
not stand in the indentation of a further line, which is what `margin` measures. -/
def readGap (start : Mark) (margin : Option Int) (g : Gap) (c : Cursor) : Scan (Gap × Cursor) :=
  match _h : c.rest with
  | [] => .ok (g, c)
  | x :: _ =>
    if isBlank x then
      let indented : Bool := match margin with
        | some m => g.broken && (c.mark.column : Int) < m && x == '\t'
        | none => false
      if indented then c.flaw start .tabMargin
      else
        readGap start margin (if g.broken then g else { g with blanks := g.blanks ++ [x] }) (c.skip 1)
    else if _hx : isBreak x then
      let new : Gap :=
        if g.broken then { g with more := g.more ++ c.breakText }
        else { g with blanks := [], first := c.breakText, broken := true }
      readGap start margin new c.skipBreak
    else .ok (g, c)
  termination_by c.size
  decreasing_by
    · exact Cursor.size_skip_one_lt _h
    · exact Cursor.size_skipBreak_lt _h _hx

/-! ## Plain scalars -/

/-- Characters that end a plain scalar inside brackets. -/
def endsFlowWord (c : Char) : Bool :=
  c == ',' || c == '?' || c == '[' || c == ']' || c == '\x7b' || c == '\x7d'

/-- The word at the start of a text. -/
def plainWord (flow : Bool) : List Char → List Char
  | [] => []
  | c :: cs =>
    if isBlank c || isBreak c then []
    else if c == ':' && atGap cs then []
    else if flow && endsFlowWord c then []
    else c :: plainWord flow cs

/-- A scalar that was read. -/
structure Scanned where
  text : List Char
  /-- The cursor stands on a line after the last word. -/
  newLine : Bool
  rest : Cursor
  deriving Inhabited

/-- Reads a plain scalar behind `done` and a gap.  Outside brackets its further lines are indented by
at least `margin`. -/
def readPlainFrom (start : Mark) (flow : Bool) (margin : Int) (done : List Char) (g : Gap)
    (c : Cursor) : Scan Scanned :=
  if (c.mark.column == 0 && atDocumentMark c.rest) || c.seesChar '#' then
    .ok ⟨done, g.broken, c⟩
  else
    let word := plainWord flow c.rest
    let behind := c.skip word.length
    let done' := if word.isEmpty then done else done ++ g.text ++ word
    let open' : Gap := if word.isEmpty then g else {}
    if !behind.sees (fun x => isBlank x || isBreak x) then
      .ok ⟨done', open'.broken, behind⟩
    else
      match readGap start (some margin) open' behind with
      | .error e => .error e
      | .ok (next, c') =>
        if !flow && (c'.mark.column : Int) < margin then .ok ⟨done', next.broken, c'⟩
        else if _h : c'.size < c.size then readPlainFrom start flow margin done' next c'
        else .ok ⟨done', next.broken, c'⟩
  termination_by c.size

/-- Reads a plain scalar. -/
def readPlain (flow : Bool) (margin : Int) (c : Cursor) : Scan Scanned :=
  readPlainFrom c.mark flow margin [] {} c

/-! ## Quoted scalars -/

/-- The value of a hexadecimal digit. -/
def hexValue (c : Char) : Option Nat :=
  if c.isDigit then some (c.toNat - '0'.toNat)
  else if 'a' ≤ c && c ≤ 'f' then some (c.toNat - 'a'.toNat + 10)
  else if 'A' ≤ c && c ≤ 'F' then some (c.toNat - 'A'.toNat + 10)
  else none

/-- The number written by exactly `n` hexadecimal digits. -/
def hexNumber (n : Nat) (cs : List Char) : Option Nat :=
  let digits := cs.take n
  if digits.length < n then none
  else digits.foldlM (fun acc d => (hexValue d).map (acc * 16 + ·)) 0

/-- The character with a number, which must not be a surrogate or beyond the last one. -/
def numbered (n : Nat) : Option Char :=
  if (0xd800 ≤ n && n ≤ 0xdfff) || n > 0x10ffff then none else some (Char.ofNat n)

/-- The characters that an escape with one letter stands for. -/
def letterEscapes : List (Char × Char) :=
  [('0', '\x00'), ('a', '\x07'), ('b', '\x08'), ('t', '\t'), ('\t', '\t'), ('n', '\n'),
   ('v', '\x0b'), ('f', '\x0c'), ('r', '\r'), ('e', '\x1b'), (' ', ' '), ('"', '"'),
   ('\x27', '\x27'), ('\\', '\\'), ('N', '\u0085'), ('_', '\u00a0'), ('L', '\u2028'),
   ('P', '\u2029')]

/-- The character of the escape behind a backslash, and the length of that escape. -/
def readEscape : List Char → Except Flaw (Char × Nat)
  | [] => .error .unknownEscape
  | c :: cs =>
    let coded (n : Nat) : Except Flaw (Char × Nat) :=
      match hexNumber n cs with
      | none => .error .badEscapeDigits
      | some code =>
        match numbered code with
        | none => .error .badEscapeNumber
        | some x => .ok (x, n + 1)
    if c == 'x' then coded 2
    else if c == 'u' then coded 4
    else if c == 'U' then coded 8
    else
      match letterEscapes.lookup c with
      | some x => .ok (x, 1)
      | none => .error .unknownEscape

/-- A word inside quotes. -/
structure QuotedWord where
  text : List Char
  /-- How many characters of the source it takes. -/
  length : Nat
  /-- It ends with an escaped line break, which the length does not count. -/
  continued : Bool := false
  deriving Inhabited

/-- Puts characters in front of a word. -/
def QuotedWord.after (w : QuotedWord) (c : Char) (n : Nat) : QuotedWord :=
  { w with text := c :: w.text, length := n + w.length }

/-- The word at the start of a text in single quotes: up to a gap or the closing quote. -/
def singleWord : List Char → QuotedWord
  | '\x27' :: '\x27' :: cs => (singleWord cs).after '\x27' 2
  | c :: cs =>
    if isBlank c || isBreak c || c == '\x27' then ⟨[], 0, false⟩ else (singleWord cs).after c 1
  | [] => ⟨[], 0, false⟩

/-- The word at the start of a text in double quotes. -/
def doubleWord (cs : List Char) : Except Flaw QuotedWord :=
  match cs with
  | [] => .ok ⟨[], 0, false⟩
  | c :: r =>
    if isBlank c || isBreak c || c == '"' then .ok ⟨[], 0, false⟩
    else if c == '\\' then
      if Cursor.breakLength r > 0 then .ok ⟨[], 1, true⟩
      else
        match readEscape r with
        | .error f => .error f
        | .ok (x, n) => (doubleWord (r.drop n)).map (·.after x (n + 1))
    else (doubleWord r).map (·.after c 1)
  termination_by cs.length

/-- Reads a quoted scalar behind its opening quote and `done`. -/
def readQuotedFrom (start : Mark) (double : Bool) (done : List Char) (c : Cursor) : Scan Scanned :=
  if c.mark.column == 0 && atDocumentMark c.rest then c.flaw start .unexpectedMark
  else if c.atEnd then c.flaw start .unexpectedEnd
  else
    let word := if double then doubleWord c.rest else .ok (singleWord c.rest)
    match word with
    | .error f => c.flaw start f
    | .ok w =>
      let behind := c.skip w.length
      let behind := if w.continued then behind.skipBreak else behind
      let done := done ++ w.text
      if behind.seesChar (if double then '"' else '\x27') then
        .ok ⟨done, false, behind.skip 1⟩
      else
        match readGap start none { broken := w.continued } behind with
        | .error e => .error e
        | .ok (g, c') =>
          if _h : c'.size < c.size then readQuotedFrom start double (done ++ g.text) c'
          else c'.flaw start .unexpectedEnd
  termination_by c.size

/-- Reads a quoted scalar. -/
def readQuoted (double : Bool) (c : Cursor) : Scan Scanned :=
  readQuotedFrom c.mark double [] (c.skip 1)

/-! ## Block scalars -/

/-- What happens to the line breaks at the end of a block. -/
inductive Chomping where
  | strip
  | clip
  | keep
  deriving DecidableEq, Repr, Inhabited

/-- The indicators behind `|` or `>`. -/
structure BlockHeader where
  chomping : Chomping := .clip
  /-- The indentation relative to the surrounding node, zero if it is to be found out. -/
  increment : Nat := 0
  deriving Inhabited

/-- A chomping indicator. -/
def chompingOf (c : Char) : Option Chomping :=
  if c == '+' then some .keep else if c == '-' then some .strip else none

/-- An indentation indicator. -/
def incrementOf (c : Char) : Option Nat :=
  if c.isDigit then some (c.toNat - '0'.toNat) else none

/-- Reads the indicators, in either order, and the rest of their line.  An indentation of zero is
malformed. -/
def readBlockHeader (start : Mark) (c : Cursor) : Scan (BlockHeader × Cursor) :=
  let chomp (c : Cursor) : Option Chomping := c.rest.head?.bind chompingOf
  let digit (c : Cursor) : Option Nat := c.rest.head?.bind incrementOf
  let (chomping, increment, c) : Option Chomping × Option Nat × Cursor :=
    match chomp c with
    | some k =>
      let c := c.skip 1
      (some k, digit c, if (digit c).isSome then c.skip 1 else c)
    | none =>
      match digit c with
      | some d =>
        let c := c.skip 1
        (chomp c, some d, if (chomp c).isSome then c.skip 1 else c)
      | none => (none, none, c)
  if increment == some 0 then c.flaw start .zeroIndentation
  else
    let c := c.skipBlanks
    let c := if c.seesChar '#' then c.skipLine else c
    if c.atLineEnd then .ok (⟨chomping.getD .clip, increment.getD 0⟩, c.skipBreak)
    else c.flaw start .noLineEnd

/-- Passes the empty lines in front of a line of a block, and its indentation of `indent` spaces; if
`indent` is zero, any number of spaces.  Gives the line breaks and the widest indentation. -/
def readEmptyLines (start : Mark) (indent : Nat) (breaks : List Char) (widest : Nat) (c : Cursor) :
    Scan (List Char × Nat × Cursor) :=
  let room := if indent == 0 then c.size else indent - c.mark.column
  let spaces := ((c.rest.take room).takeWhile (· == ' ')).length
  let c' := c.skip spaces
  let widest := max widest c'.mark.column
  if (indent == 0 || c'.mark.column < indent) && c'.seesChar '\t' then
    c'.flaw start .tabIndentation
  else if c'.sees isBreak then
    if _h : c'.skipBreak.size < c.size then
      readEmptyLines start indent (breaks ++ c'.breakText) widest c'.skipBreak
    else .ok (breaks, widest, c')
  else .ok (breaks, widest, c')
  termination_by c.size
  decreasing_by exact _h

/-- The lines read so far. -/
structure BlockLines where
  text : List Char := []
  /-- The line break behind the last line. -/
  last : List Char := []
  /-- The empty lines behind that. -/
  empty : List Char := []
  /-- The last line starts with a blank, so it is not folded. -/
  indented : Bool := false
  deriving Inhabited

/-- Adds one line behind what was read.  Folding turns a single line break between two lines that
start with no blank into a space. -/
def BlockLines.add (b : BlockLines) (folded : Bool) (line : List Char) : List Char :=
  let blank := match line with
    | c :: _ => isBlank c
    | [] => false
  let joint :=
    if folded && !b.indented && !blank && b.last == ['\n'] then
      (if b.empty.isEmpty then [' '] else [])
    else b.last
  b.text ++ joint ++ b.empty ++ line

/-- Reads the lines of a block that are indented by `indent`. -/
def readBlockLines (start : Mark) (folded : Bool) (indent : Nat) (b : BlockLines) (c : Cursor) :
    Scan (BlockLines × Cursor) :=
  if c.mark.column == indent && !c.atEnd then
    let line := c.rest.takeWhile fun x => !isBreak x
    let behind := c.skip line.length
    match readEmptyLines start indent [] 0 behind.skipBreak with
    | .error e => .error e
    | .ok (empty, _, c') =>
      let new : BlockLines :=
        { text := b.add folded line, last := behind.breakText, empty := empty
          indented := c.sees isBlank }
      if _h : c'.size < c.size then readBlockLines start folded indent new c' else .ok (new, c')
  else .ok (b, c)
  termination_by c.size

/-- Reads a block scalar; `around` is the indentation of the surrounding node, -1 outside all. -/
def readBlock (folded : Bool) (around : Int) (c : Cursor) : Scan Scanned := do
  let start := c.mark
  let (h, c) ← readBlockHeader start (c.skip 1)
  let wanted : Nat := if h.increment == 0 then 0 else (max around 0).toNat + h.increment
  let (empty, widest, c) ← readEmptyLines start wanted [] 0 c
  let indent := if wanted == 0 then max widest (max (around + 1) 1).toNat else wanted
  let (b, c) ← readBlockLines start folded indent { empty := empty } c
  let text := match h.chomping with
    | .strip => b.text
    | .clip => b.text ++ b.last
    | .keep => b.text ++ b.last ++ b.empty
  return ⟨text, true, c⟩

end DefaultLowering.Yaml
