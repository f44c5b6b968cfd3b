import DefaultLowering.Proofs.Wording

/-!
# Cutting a written fragment

The text of a well-spelled, legible tree is cut into the words that it was written from.  The proof
goes over the tree; what follows a phrase is kept general, and has to be something that does not go
on with the last word of the phrase.

- `Expr.Follow`: what may follow an expression in the place where it stands;
- `Expr.cut`, `Stmt.cut`: the text of a tree is cut into its words;
- `lex_withoutBraces`: the text of a body without its braces is cut into the words of its
  statements.
-/

namespace DefaultLowering.Fragment

variable {rest : List Char} {text op : String} {ws : List Word} {min : Nat}

/-! ## Section 1: What follows a word -/

/-- The end, or a sign that no word goes on with. -/
def Soft (rest : List Char) : Prop := ∀ c ∈ rest.head?, c ∈ [' ', ')', ';', ',']

theorem soft_blank : Soft (' ' :: rest) := by
  intro c hc
  cases hc
  decide

theorem soft_close : Soft (')' :: rest) := by
  intro c hc
  cases hc
  decide

theorem soft_comma : Soft (',' :: rest) := by
  intro c hc
  cases hc
  decide

theorem soft_semicolon : Soft (';' :: rest) := by
  intro c hc
  cases hc
  decide

/-- What may follow an expression: in the place of a callee or a qualifier also the sign that makes
    it one. -/
def Expr.Follow (min : Nat) (x : Expr) (rest : List Char) : Prop :=
  Soft rest ∨ min = powerPostfix ∧ (rest.head? = some '.' ∧ x.isNumber = false ∨
    rest.head? = some '(' ∧ x.isBareMember = false)

/-- The text is cut into the words when something soft follows. -/
def Cuts (text : String) (ws : List Word) : Prop :=
  ∀ {rest ws'}, Soft rest → Lexes rest ws' → Lexes (text.toList ++ rest) (ws ++ ws')

section

variable {rest : List Char} {ws : List Word}

/-- Brackets and separators stand in front of everything. -/
theorem standsBefore_sign (htext : text ∈ ["(", ")", "\x7b", "\x7d", ",", ";", "."])
    (rest : List Char) :
    (Word.sign text).StandsBefore rest := by
  simp only [List.mem_cons, List.not_mem_nil, or_false] at htext
  rcases htext with rfl | rfl | rfl | rfl | rfl | rfl | rfl <;> exact ⟨_, _, rfl, rfl⟩

/-- Operators stand in front of a blank. -/
theorem standsBefore_operator (hop : op = "=" ∨ (binaryPower op).isSome = true) (rest : List Char) :
    (Word.sign op).StandsBefore (' ' :: rest) := by
  rcases hop with rfl | hop
  · exact ⟨_, _, rfl, rfl⟩
  · unfold binaryPower at hop
    split at hop <;> first | exact ⟨_, _, rfl, rfl⟩ | cases hop

theorem Lexes.sign (htext : text ∈ ["(", ")", "\x7b", "\x7d", ",", ";", "."]) (h : Lexes rest ws) :
    Lexes (text.toList ++ rest) (.sign text :: ws) :=
  Lexes.word (standsBefore_sign htext rest) h

theorem Lexes.lexeme {w : Word} (hw : w.isLexeme = true) (hrest : w.Apart rest)
    (h : Lexes rest ws) : Lexes (w.text.toList ++ rest) (w :: ws) :=
  Lexes.word (Word.standsBefore hw hrest) h

/-- An operator with a blank behind it. -/
theorem Lexes.operator (hop : op = "=" ∨ (binaryPower op).isSome = true) (h : Lexes rest ws) :
    Lexes (op.toList ++ ' ' :: rest) (.sign op :: ws) :=
  Lexes.word (standsBefore_operator hop rest) h.blank

end

section

variable {w : Word} {rest : List Char}

theorem Soft.apart (hrest : Soft rest) (hw : w.kind ≠ .operator) : w.Apart rest := by
  have hchar : ∀ c ∈ [' ', ')', ';', ','],
      continuesIdent c = false ∧ c ≠ '(' ∧ isNumberPart c = false := by
    simp only [List.forall_mem_cons, List.not_mem_nil, false_implies, implies_true]
    decide
  obtain ⟨kind, text⟩ := w
  cases kind with
  | ident => exact fun c hc => (hchar c (hrest c hc)).1
  | member => exact .inr fun c hc => ⟨(hchar c (hrest c hc)).1, (hchar c (hrest c hc)).2.1⟩
  | number => exact fun c hc => (hchar c (hrest c hc)).2.2
  | string => trivial
  | operator => exact absurd rfl hw

/-- A dot goes on with no word but a number. -/
theorem apart_dot (hrest : rest.head? = some '.') (hw : w.kind ≠ .operator)
    (hnumber : w.kind ≠ .number) : w.Apart rest := by
  obtain ⟨kind, text⟩ := w
  cases kind with
  | ident | member => first
    | (intro c hc; rw [hrest] at hc; cases hc; decide)
    | (right; intro c hc; rw [hrest] at hc; cases hc; decide)
  | number => exact absurd rfl hnumber
  | string => trivial
  | operator => exact absurd rfl hw

/-- An opening parenthesis goes on with a member reference without signature only. -/
theorem apart_open (hrest : rest.head? = some '(') (hw : w.kind ≠ .operator)
    (hmember : w.kind = .member → isMethodIdent w.text = true) : w.Apart rest := by
  obtain ⟨kind, text⟩ := w
  cases kind with
  | ident | number => intro c hc; rw [hrest] at hc; cases hc; decide
  | member => exact .inl (hmember rfl)
  | string => trivial
  | operator => exact absurd rfl hw

end

/-! ## Section 2: Lists, parentheses and operators -/

theorem render_name (ident : String) (q : Expr) (level : Option Nat) (min : Nat) :
    (Expr.name ident q level).render min =
      q.render powerPostfix ++ (if q.isAbsent then "" else ".") ++ ident := by
  cases q <;> simp [Expr.render, Expr.isAbsent]

theorem toList_intercalate_cons (sep text : String) (texts : List String) :
    (String.intercalate sep (text :: texts)).toList =
      text.toList ++ texts.flatMap fun t => sep.toList ++ t.toList := by
  induction texts generalizing text with
  | nil => simp
  | cons t ts ih =>
    rw [String.intercalate_cons_cons]
    simp [ih]

section

variable {rest : List Char} {ws : List Word}

/-- Things with commas between them. -/
theorem Lexes.listed {texts : List String} {wss : List (List Word)}
    (h : List.Forall₂ Cuts texts wss) (hsoft : Soft rest) (hrest : Lexes rest ws) :
    Lexes ((String.intercalate ", " texts).toList ++ rest) (listed wss ++ ws) := by
  -- each of the others has a comma and a blank in front of it
  have htail : ∀ {texts wss}, List.Forall₂ Cuts texts wss →
      Lexes ((texts.flatMap fun t => ", ".toList ++ t.toList) ++ rest)
        (wss.flatMap (.sign "," :: ·) ++ ws) ∧
      Soft ((texts.flatMap fun t => ", ".toList ++ t.toList) ++ rest) := by
    intro texts wss h
    induction h with
    | nil => exact ⟨hrest, hsoft⟩
    | cons hfirst _ ih =>
      refine ⟨?_, soft_comma⟩
      simp only [List.flatMap_cons, List.append_assoc]
      have hcomma : "," ∈ ["(", ")", "\x7b", "\x7d", ",", ";", "."] := by decide
      exact Lexes.sign hcomma (Lexes.blank (hfirst ih.2 ih.1))
  cases h with
  | nil => exact hrest
  | cons hfirst hothers =>
    rw [toList_intercalate_cons, List.append_assoc, Fragment.listed, List.append_assoc]
    exact hfirst (htail hothers).2 (htail hothers).1

/-- Something in parentheses if they are needed; without them it is soft what follows. -/
theorem Lexes.wrapped {needed : Bool} {ws' : List Word} (h : Cuts text ws')
    (hsoft : needed = false → Soft rest) (hrest : Lexes rest ws) :
    Lexes ((parenthesized needed text).toList ++ rest) (wrapped needed ws' ++ ws) := by
  cases needed with
  | false => exact h (hsoft rfl) hrest
  | true =>
    have hclose : Lexes (")".toList ++ rest) (.sign ")" :: ws) := Lexes.sign (by decide) hrest
    have hinside : Lexes ("(".toList ++ (text.toList ++ (")".toList ++ rest)))
        (.sign "(" :: (ws' ++ .sign ")" :: ws)) := Lexes.sign (by decide) (h soft_close hclose)
    simpa [parenthesized, Fragment.wrapped] using hinside

end

section

variable {reserved : List String}

/-- No expression begins with an equals sign. -/
theorem Opening.head_ne {cs : List Char} (hws : Opening reserved ws) (h : Lexes cs ws) :
    cs.head? ≠ some '=' := by
  intro hhead
  obtain ⟨w, tail, rfl, hw⟩ := hws
  obtain ⟨ts, hts, hwords⟩ := h 0
  cases cs with
  | nil => cases hhead
  | cons =>
    cases hhead
    obtain ⟨kind, n, tail', hextent, -, rfl⟩ := lexFrom_cons_eq_ok.mp hts
    have hkind : kind = some .operator := by
      rw [extent, if_neg (by decide), if_neg (by simp), if_neg (by simp), if_neg (by decide),
        if_neg (by decide), if_neg (by decide), if_neg (by decide)] at hextent
      split at hextent
      · cases hextent
      · cases hextent
        rfl
    subst hkind
    obtain ⟨rfl, -⟩ := List.cons.inj hwords
    have hsign := hw.sign rfl
    have hfirst : ∀ text ∈ ["(", "!", "-", "+"], text.toList.head? ≠ some '=' := by decide
    exact hfirst _ hsign (by simp [Token.word])

theorem Expr.opening_of_proper (x : Expr) (hx : x.all (Node.isProper reserved) = true)
    (hpresent : x.isAbsent = false) (min : Nat) : Opening reserved (x.words min) :=
  have hspelled :=
    (Part.expr x).all_of_all (fun n h _ => (Bool.and_eq_true_iff.mp (n.of_all rfl rfl h)).1) hx hx
  x.opening_words hspelled hpresent min

end

section

variable {rest : List Char} {ws : List Word}

/-- An exclamation mark begins longer operators, each with an equals sign behind it. -/
theorem extent_not (h : rest.head? ≠ some '=') :
    extent '!' rest = .ok ⟨some .operator, 0⟩ := by
  have hop : operatorAt ('!' :: rest) = some "!" := by
    cases rest with
    | nil => rfl
    | cons c =>
      have hne : ('=' == c) = false := beq_eq_false_iff_ne.mpr fun hc => h (congrArg some hc.symm)
      simp [operatorAt, operators, List.isPrefixOf, hne]
  rw [extent, if_neg (by decide), if_neg (by simp), if_neg (by simp), if_neg (by decide),
    if_neg (by decide), if_neg (by decide), if_neg (by decide), hop]
  rfl

/-- Operators in front of their operand stand before everything but an equals sign. -/
theorem standsBefore_unary (hop : op ∈ ["!", "-", "+", "typeof"]) (h : rest.head? ≠ some '=') :
    (unaryWord op).StandsBefore ((unaryGap op).toList ++ rest) := by
  simp only [List.mem_cons, List.not_mem_nil, or_false] at hop
  rcases hop with rfl | rfl | rfl | rfl
  · exact ⟨'!', [], rfl, extent_not h⟩
  · exact ⟨'-', [], rfl, rfl⟩
  · exact ⟨'+', [], rfl, rfl⟩
  · have hlexeme : (unaryWord "typeof").isLexeme = true := by decide
    exact Word.standsBefore hlexeme (soft_blank.apart (by decide))

theorem Lexes.unary {reserved : List String} (hop : op ∈ ["!", "-", "+", "typeof"])
    (hws : Opening reserved ws) (h : Lexes rest ws) :
    Lexes ((op ++ unaryGap op).toList ++ rest) (unaryWord op :: ws) := by
  have hgap : Lexes ((unaryGap op).toList ++ rest) ws := by
    unfold unaryGap
    split
    · exact h.blank
    · exact h
  rw [String.toList_append, List.append_assoc]
  exact Lexes.word (standsBefore_unary hop (hws.head_ne h)) hgap

end

theorem Expr.Follow.soft {x : Expr} (h : x.Follow min rest) (hmin : min < powerPostfix) :
    Soft rest := by
  rcases h with h | ⟨rfl, -⟩
  · exact h
  · exact absurd hmin (Nat.lt_irrefl _)

theorem binaryPower_getD_le (op : String) : (binaryPower op).getD 0 ≤ 6 := by
  unfold binaryPower
  split <;> decide

theorem Expr.isAbsent_eq_false {x : Expr} (h : x ≠ .absent) : x.isAbsent = false := by
  cases x with
  | absent => exact absurd rfl h
  | _ => rfl

theorem Stmt.isAbsent_of_isBlock {s : Stmt} (h : s.isBlock = true) : s.isAbsent = false := by
  cases s with
  | block => rfl
  | _ => cases h

theorem render_function {name : String} {params names : List String} {body : Stmt}
    (h : body.isAbsent = false) : (Function.mk name params names body).render =
      functionHead name params ++ body.render := by
  cases body with
  | absent => cases h
  | _ => simp [Function.render]

theorem render_ret (x : Expr) : (Stmt.ret x).render =
    "return" ++ (if x.isAbsent then "" else " ") ++ x.render powerAssign ++ ";" := by
  cases x <;> simp [Stmt.render, Expr.render, Expr.isAbsent]

theorem render_cond (test : Expr) (yes no : Stmt) : (Stmt.cond test yes no).render =
    "if (" ++ test.render powerAssign ++ ") " ++ yes.render
      ++ (if no.isAbsent then "" else " else " ++ no.render) := by
  cases no <;> simp [Stmt.render, Stmt.isAbsent, String.append_assoc]

theorem render_decl (name : String) (init : Expr) : (Decl.mk name init).render =
    name ++ (if init.isAbsent then "" else " = " ++ init.render (powerAssign + 1)) := by
  cases init <;> simp [Decl.render, Expr.isAbsent, String.append_assoc]

/-- Statements with a blank in front of each. -/
def spacedStmts (ss : List Stmt) : List Char := (renderStmts ss).flatMap fun t => ' ' :: t.toList

/-- The blank before the closing brace. -/
def endGap (ss : List Stmt) : List Char := if ss.isEmpty then [] else [' ']

theorem Lexes.endGap (h : Lexes rest ws) (ss : List Stmt) :
    Lexes (endGap ss ++ rest) ws := by
  unfold Fragment.endGap
  split
  · exact h
  · exact h.blank

theorem render_block (ss : List Stmt) : (Stmt.block ss).render.toList =
    "\x7b".toList ++ (spacedStmts ss ++ (endGap ss ++ "\x7d".toList)) := by
  cases ss with
  | nil => rfl
  | cons =>
    rw [Stmt.render, String.toList_append, String.toList_append, toList_intercalate_cons]
    simp [spacedStmts, renderStmts, endGap]

theorem apart_name {ident : String} {q : Expr} {level : Option Nat}
    (h : (Expr.name ident q level).Follow min rest) : (nameWord ident).Apart rest := by
  have hkind := kind_nameWord ident
  rcases h with hsoft | ⟨-, ⟨hdot, -⟩ | ⟨hopen, hbare⟩⟩
  · exact hsoft.apart hkind.1
  · exact apart_dot hdot hkind.1 hkind.2
  · refine apart_open hopen hkind.1 fun hmember => ?_
    have hword : isMemberWord ident = true := by
      by_contra hnot
      unfold isMemberWord at hnot
      simp [nameWord, hnot] at hmember
    have hsignature : isMethodIdent ident = true := by
      simpa [Expr.isBareMember, isMemberIdent_of_isMemberWord hword] using hbare
    exact hsignature

theorem apart_literal (h : (Expr.literal text).Follow min rest) :
    (literalWord text).Apart rest := by
  have hkind := kind_literalWord text
  rcases h with hsoft | ⟨-, ⟨hdot, hnumber⟩ | ⟨hopen, -⟩⟩
  · exact hsoft.apart hkind.1
  · have hnot : Word.isLexeme ⟨.number, text⟩ = false := hnumber
    refine apart_dot hdot hkind.1 ?_
    simp only [literalWord, hnot]
    show (if Word.isLexeme ⟨.string, text⟩ = true then TokenKind.string else .ident) ≠ .number
    split <;> decide
  · exact apart_open hopen hkind.1 fun hmember => absurd hmember hkind.2

/-! ## Section 3: Trees -/

section

variable {reserved : List String}

theorem cut_params (params : List String) (h : params.all isIdentWord = true) :
    List.Forall₂ Cuts params (params.map fun p => [.plain p]) := by
  induction params with
  | nil => exact .nil
  | cons p ps ih =>
    simp only [List.all_cons, Bool.and_eq_true] at h
    exact .cons (fun hsoft hrest => Lexes.lexeme h.1 (hsoft.apart nofun) hrest) (ih h.2)

/-- A word of letters with something soft or an opening parenthesis behind it. -/
theorem Lexes.keyword (text : String) (htext : isIdentWord text = true)
    (hrest : Soft rest ∨ rest.head? = some '(') (h : Lexes rest ws) :
    Lexes (text.toList ++ rest) (.plain text :: ws) := by
  have hapart : (Word.plain text).Apart rest := by
    rcases hrest with hsoft | hopen
    · exact hsoft.apart nofun
    · exact apart_open hopen nofun nofun
  exact Lexes.lexeme htext hapart h

theorem Cuts.operation {left right : String} {ws' : List Word} (hleft : Cuts left ws)
    (hop : op = "=" ∨ (binaryPower op).isSome = true) (hright : Cuts right ws') :
    Cuts (left ++ " " ++ op ++ " " ++ right) (ws ++ .sign op :: ws') := by
  intro rest ws'' hsoft h
  have hfront := hleft soft_blank (Lexes.operator hop (hright hsoft h)).blank
  simpa using hfront

mutual

/-- The text of an expression is cut into its words, and what follows is cut as it is alone. -/
theorem Expr.cut (x : Expr) (hx : x.all (Node.isProper reserved) = true) (min : Nat)
    {rest : List Char} {ws : List Word} (hrest : x.Follow min rest) (h : Lexes rest ws) :
    Lexes ((x.render min).toList ++ rest) (x.words min ++ ws) := by
  cases x with
  | absent => simpa [Expr.render, Expr.words] using h
  | name ident q =>
    simp only [Expr.all, Node.isProper, Node.isSpelled, Node.isLegible, Bool.and_eq_true,
      Bool.or_eq_true, Bool.not_eq_true'] at hx
    have hident : Lexes (ident.toList ++ rest) (nameWord ident :: ws) :=
      Lexes.lexeme (isLexeme_nameWord (hx.1.1.imp_right And.left)) (apart_name hrest) h
    rw [render_name, Expr.words]
    by_cases hq : q = .absent
    · subst hq
      simpa [Expr.render, Expr.words, Expr.isAbsent, joint] using hident
    · have hdot : Lexes (".".toList ++ (ident.toList ++ rest))
          (.sign "." :: nameWord ident :: ws) := Lexes.sign (by decide) hident
      -- the qualifier is no number, which would take the dot
      have hfront := q.cut hx.2 powerPostfix (.inr ⟨rfl, .inl ⟨rfl, hx.1.2⟩⟩) hdot
      have hpresent : q.isAbsent = false := Expr.isAbsent_eq_false hq
      simpa [joint, hpresent] using hfront
  | call callee args =>
    simp only [Expr.all, Node.isProper, Node.isSpelled, Node.isLegible, Bool.and_eq_true,
      Bool.not_eq_true'] at hx
    have hclose : Lexes (")".toList ++ rest) (.sign ")" :: ws) := Lexes.sign (by decide) h
    have hargs := Lexes.listed (cut_args args hx.2) soft_close hclose
    have hopen : Lexes ("(".toList ++ _) (.sign "(" :: _) := Lexes.sign (by decide) hargs
    -- a bare member would take the bracket for its signature
    have hfront := callee.cut hx.1.2 powerPostfix (.inr ⟨rfl, .inr ⟨rfl, hx.1.1.2⟩⟩) hopen
    simpa [Expr.render, Expr.words] using hfront
  | this =>
    rw [Expr.render, Expr.words]
    have hlexeme : (Word.plain "this").isLexeme = true := by decide
    refine Lexes.lexeme hlexeme ?_ h
    rcases hrest with hsoft | ⟨-, ⟨hdot, -⟩ | ⟨hopen, -⟩⟩
    · exact hsoft.apart (by decide)
    · exact apart_dot hdot (by decide) (by decide)
    · exact apart_open hopen (by decide) (by decide)
  | literal =>
    simp only [Expr.all, Node.isProper, Node.isSpelled, Bool.and_eq_true] at hx
    rw [Expr.render, Expr.words]
    exact Lexes.lexeme (isLexeme_literalWord hx.1) (apart_literal hrest) h
  | binary op x y =>
    simp only [Expr.all, Node.isProper, Node.isSpelled, Bool.and_eq_true, Bool.or_eq_true,
      decide_eq_true_eq] at hx
    rw [Expr.render, Expr.words]
    refine Lexes.wrapped ?_ ?_ h
    · exact Cuts.operation (fun hsoft h => x.cut hx.1.2 _ (.inl hsoft) h) hx.1.1.1.1.1
        (fun hsoft h => y.cut hx.2 _ (.inl hsoft) h)
    · intro hneeded
      have hown := of_decide_eq_false hneeded
      -- without brackets it is no callee or qualifier, so nothing tight follows
      have hle := binaryPower_getD_le op
      refine hrest.soft ?_
      unfold powerAssign at hown
      unfold powerPostfix
      split at hown <;> omega
  | unary op x =>
    simp only [Expr.all, Node.isProper, Node.isSpelled, Bool.and_eq_true, decide_eq_true_eq,
      Bool.not_eq_true'] at hx
    rw [Expr.render, Expr.words]
    refine Lexes.wrapped ?_ ?_ h
    · intro rest ws hsoft h
      have hopening := (x.opening_of_proper hx.2 hx.1.1.2 powerUnary).append ws
      have hfront := Lexes.unary hx.1.1.1 hopening (x.cut hx.2 _ (.inl hsoft) h)
      simpa using hfront
    · intro hneeded
      exact hrest.soft (Nat.lt_succ_of_le (Nat.not_lt.mp (of_decide_eq_false hneeded)))
  | func f =>
    simp only [Expr.all, Bool.and_eq_true] at hx
    rw [Expr.render, Expr.words]
    refine Lexes.wrapped ?_ ?_ h
    · intro rest ws _ h
      exact f.cut hx.2 h
    · intro hneeded
      exact hrest.soft (Nat.lt_succ_of_le (Nat.not_lt.mp (of_decide_eq_false hneeded)))

theorem cut_args (xs : List Expr) (hxs : argsAll (Node.isProper reserved) xs = true) :
    List.Forall₂ Cuts (renderArgs xs) (argsWords xs) := by
  cases xs with
  | nil => exact .nil
  | cons x xs =>
    simp only [argsAll, Bool.and_eq_true] at hxs
    exact .cons (fun hsoft h => x.cut hxs.1 _ (.inl hsoft) h) (cut_args xs hxs.2)

/-- A statement ends in a sign, so nothing goes on with it. -/
theorem Stmt.cut (s : Stmt) (hs : s.all (Node.isProper reserved) = true)
    {rest : List Char} {ws : List Word} (h : Lexes rest ws) :
    Lexes (s.render.toList ++ rest) (s.words ++ ws) := by
  have hend : Lexes (";".toList ++ rest) (.sign ";" :: ws) := Lexes.sign (by decide) h
  cases s with
  | absent => simpa [Stmt.render, Stmt.words] using hend
  | block ss =>
    simp only [Stmt.all, Bool.and_eq_true] at hs
    have hclose : Lexes ("\x7d".toList ++ rest) (.sign "\x7d" :: ws) := Lexes.sign (by decide) h
    have hopen : Lexes ("\x7b".toList ++ _) (.sign "\x7b" :: _) :=
      Lexes.sign (by decide) (cut_stmts ss hs.2 (hclose.endGap ss))
    rw [render_block]
    simpa [Stmt.words] using hopen
  | expr x =>
    simp only [Stmt.all, Bool.and_eq_true] at hs
    have hfront := x.cut hs.2 powerAssign (.inl soft_semicolon) hend
    simpa [Stmt.render, Stmt.words] using hfront
  | ret x =>
    simp only [Stmt.all, Bool.and_eq_true] at hs
    have hvalue := x.cut hs.2 powerAssign (.inl soft_semicolon) hend
    rw [render_ret]
    by_cases hx : x = .absent
    · subst hx
      have hfront := Lexes.keyword "return" (by decide) (.inl soft_semicolon) hend
      simpa [Expr.isAbsent, Expr.render, Expr.words, Stmt.words] using hfront
    · have hpresent : x.isAbsent = false := Expr.isAbsent_eq_false hx
      have hfront := Lexes.keyword "return" (by decide) (.inl soft_blank) hvalue.blank
      simpa [hpresent, Stmt.words] using hfront
  | var ds =>
    simp only [Stmt.all, Bool.and_eq_true] at hs
    have hdecls := Lexes.listed (cut_decls ds hs.2) soft_semicolon hend
    have hfront := Lexes.keyword "var" (by decide) (.inl soft_blank) hdecls.blank
    simpa [Stmt.render, Stmt.words] using hfront
  | cond test yes no =>
    simp only [Stmt.all, Bool.and_eq_true] at hs
    have helse : Lexes ((if no.isAbsent then "" else " else " ++ no.render).toList ++ rest)
        ((if no.isAbsent then [] else .plain "else" :: no.words) ++ ws) := by
      split
      · exact h
      · have hfront := Lexes.keyword "else" (by decide) (.inl soft_blank) (no.cut hs.2 h).blank
        simpa using hfront.blank
    have hyes := (yes.cut hs.1.2 helse).blank
    have hclose : Lexes (")".toList ++ _) (.sign ")" :: _) := Lexes.sign (by decide) hyes
    have htest := test.cut hs.1.1.2 powerAssign (.inl soft_close) hclose
    have hopen : Lexes ("(".toList ++ _) (.sign "(" :: _) := Lexes.sign (by decide) htest
    have hfront := Lexes.keyword "if" (by decide) (.inl soft_blank) hopen.blank
    rw [render_cond]
    simpa [Stmt.words] using hfront

theorem cut_stmts (ss : List Stmt) (hss : stmtsAll (Node.isProper reserved) ss = true)
    {rest : List Char} {ws : List Word} (h : Lexes rest ws) :
    Lexes (spacedStmts ss ++ rest) (stmtsWords ss ++ ws) := by
  cases ss with
  | nil => simpa [spacedStmts, renderStmts, stmtsWords] using h
  | cons s ss =>
    simp only [stmtsAll, Bool.and_eq_true] at hss
    have hfront := Lexes.blank (s.cut hss.1 (cut_stmts ss hss.2 h))
    simpa [spacedStmts, renderStmts, stmtsWords] using hfront

theorem cut_decls (ds : List Decl) (hds : declsAll (Node.isProper reserved) ds = true) :
    List.Forall₂ Cuts (renderDecls ds) (declsWords ds) := by
  cases ds with
  | nil => exact .nil
  | cons d ds =>
    obtain ⟨name, init⟩ := d
    simp only [declsAll, Decl.all, Node.isProper, Node.isSpelled, Bool.and_eq_true] at hds
    refine .cons ?_ (cut_decls ds hds.2)
    intro rest ws hsoft h
    rw [render_decl, Decl.words]
    by_cases hinit : init = .absent
    · subst hinit
      have hfront := Lexes.keyword name hds.1.1.1 (.inl hsoft) h
      simpa [Expr.isAbsent, Expr.words, joint] using hfront
    · have hpresent : init.isAbsent = false := Expr.isAbsent_eq_false hinit
      have hvalue := init.cut hds.1.2 (powerAssign + 1) (.inl hsoft) h
      have hop := (Lexes.operator (.inl rfl) hvalue).blank
      have hfront := Lexes.keyword name hds.1.1.1 (.inl soft_blank) hop
      simpa [hpresent, joint] using hfront

theorem Function.cut (f : Function) (hf : f.all (Node.isProper reserved) = true)
    {rest : List Char} {ws : List Word} (h : Lexes rest ws) :
    Lexes (f.render.toList ++ rest) (f.words ++ ws) := by
  obtain ⟨name, params, names, body⟩ := f
  simp only [Function.all, Node.isProper, Node.isSpelled, Bool.and_eq_true, Bool.or_eq_true,
    decide_eq_true_eq] at hf
  have hpresent := Stmt.isAbsent_of_isBlock hf.1.1.2
  have hbody := (body.cut hf.2 h).blank
  have hclose : Lexes (")".toList ++ _) (.sign ")" :: _) := Lexes.sign (by decide) hbody
  have hparams := Lexes.listed (cut_params params hf.1.1.1.2) soft_close hclose
  have hopen : Lexes ("(".toList ++ _) (.sign "(" :: _) := Lexes.sign (by decide) hparams
  rw [render_function hpresent]
  by_cases hname : name = ""
  · subst hname
    have hfront := Lexes.keyword "function" (by decide) (.inr rfl) hopen
    simpa [functionHead, Function.words, nameWords, joint, hpresent] using hfront
  · have hword := hf.1.1.1.1.resolve_left hname
    have hnamed := Lexes.keyword name hword (.inr rfl) hopen
    have hfront := Lexes.keyword "function" (by decide) (.inl soft_blank) hnamed.blank
    simpa [functionHead, Function.words, nameWords, joint, hpresent, hname] using hfront

end

/-- A text without its first and its last character. -/
def withoutBraces (text : String) : String := String.ofList (text.toList.drop 1).dropLast

theorem lex_withoutBraces {ss : List Stmt} (hss : stmtsAll (Node.isProper reserved) ss = true) :
    ∃ tokens stop, lex (withoutBraces (Stmt.block ss).render) = .ok ⟨tokens, stop⟩ ∧
      tokens.map Token.word = stmtsWords ss := by
  have hinside : (withoutBraces (Stmt.block ss).render).toList = spacedStmts ss ++ endGap ss := by
    rw [withoutBraces, String.toList_ofList, render_block]
    show (spacedStmts ss ++ (endGap ss ++ ['\x7d'])).dropLast = _
    rw [← List.append_assoc, List.dropLast_concat]
  have hlexes := cut_stmts ss hss (Lexes.nil.endGap ss)
  rw [List.append_nil, List.append_nil] at hlexes
  obtain ⟨tokens, htokens, hwords⟩ := hlexes 0
  refine ⟨tokens, Text.byteLength (spacedStmts ss ++ endGap ss), ?_, hwords⟩
  rw [lex, hinside, htokens]

end

end DefaultLowering.Fragment
