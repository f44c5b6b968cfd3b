import DefaultLowering.Proofs.Deriving
import DefaultLowering.Proofs.Cutting

/-!
# Readers on known tokens

The readers run forward: one rule for each way in which a reader succeeds, in terms of what the
readers that it calls give.  The rules speak of the words of the tokens, so they say nothing about
places in the text.
-/

namespace DefaultLowering.Fragment

variable {o c e : Token} {xs : List Expr} {name : String} {ss : List Stmt}

/-! ## Section 1: What a reader gives -/

/-- The reader succeeds with `a` and leaves `rest`. -/
def Gives {α : Type} {P : List Token → Prop} (r : Except SyntaxError (α × Subtype P)) (a : α)
    (rest : List Token) : Prop :=
  ∃ h : P rest, r = .ok (a, ⟨rest, h⟩)

theorem ok_bind {ε α β : Type} (a : α) (f : α → Except ε β) : (Except.ok a >>= f) = f a := rfl

section

variable {stop : Nat} {t : Token} {text : String} {ts rest : List Token}

theorem Token.is_sign (h : t.word = .sign text) (text' : String) :
    t.is text' = (text == text') := by
  obtain ⟨kind, found, offset⟩ := t
  cases h
  simp [Token.is]

theorem Token.is_plain (h : t.word = .plain text) (text' : String) :
    t.is text' = (text == text') := by
  obtain ⟨kind, found, offset⟩ := t
  cases h
  simp [Token.is]

theorem expect_cons (h : t.is text = true) :
    expect stop text (t :: rest) = .ok ⟨rest, Nat.lt_succ_self _⟩ := by
  rw [expect, if_pos h]

theorem accept?_cons (h : t.is text = true) :
    accept? text (t :: rest) = some ⟨rest, Nat.lt_succ_self _⟩ := by
  rw [accept?, if_pos h]

theorem accept?_eq_none (h : nextIs text ts = false) : accept? text ts = none := by
  cases ts with
  | nil => rfl
  | cons t =>
    have ht : t.is text = false := h
    rw [accept?, ht]
    rfl

theorem tokenOf_cons {kinds : List TokenKind} {cause : String → SyntaxCause} (h : t.kind ∈ kinds) :
    tokenOf stop kinds cause (t :: rest) = .ok (t.text, ⟨rest, Nat.lt_succ_self _⟩) := by
  rw [tokenOf, if_pos h]

theorem tokenOf_plain {kinds : List TokenKind} {cause : String → SyntaxCause}
    (ht : t.word = .plain text) (h : .ident ∈ kinds) :
    tokenOf stop kinds cause (t :: rest) = .ok (text, ⟨rest, Nat.lt_succ_self _⟩) := by
  obtain ⟨kind, found, offset⟩ := t
  cases ht
  exact tokenOf_cons h

theorem optionalEnd_cons (h : t.is ";" = true) :
    optionalEnd (t :: rest) = ⟨rest, Nat.le_succ _⟩ := by
  rw [optionalEnd, accept?_cons h]

end

/-! ### Expressions -/

section

variable {stop power : Nat} {t : Token} {x y z : Expr} {ts r₁ r₂ r₃ : List Token}

theorem readAssign_plain (hx : Gives (readBinary stop 1 ts) x r₁) (h : nextIs "=" r₁ = false) :
    Gives (readAssign stop ts) x r₁ := by
  obtain ⟨h₁, hx⟩ := hx
  refine ⟨h₁, ?_⟩
  rw [readAssign, hx, ok_bind]
  simp only [accept?_eq_none h]
  rfl

theorem readAssign_equals (hx : Gives (readBinary stop 1 ts) x (t :: r₁)) (ht : t.is "=" = true)
    (hy : Gives (readAssign stop r₁) y r₂) : Gives (readAssign stop ts) (.binary "=" x y) r₂ := by
  obtain ⟨h₁, hx⟩ := hx
  obtain ⟨h₂, hy⟩ := hy
  rw [List.length_cons] at h₁
  refine ⟨by omega, ?_⟩
  rw [readAssign, hx, ok_bind]
  simp only [accept?_cons ht, hy, ok_bind]
  rfl

theorem readBinary_of (hx : Gives (readUnary stop ts) x r₁)
    (hy : Gives (readOperators stop power x r₁) y r₂) : Gives (readBinary stop power ts) y r₂ := by
  obtain ⟨h₁, hx⟩ := hx
  obtain ⟨h₂, hy⟩ := hy
  refine ⟨by omega, ?_⟩
  rw [readBinary, hx, ok_bind]
  simp only [hy, ok_bind]
  rfl

theorem readOperators_stop (h : ∀ t ∈ ts.head?, t.kind = .operator → ∀ k,
    binaryPower t.text = some k → k < power) : Gives (readOperators stop power x ts) x ts := by
  refine ⟨Nat.le_refl _, ?_⟩
  cases ts with
  | nil => rw [readOperators]
  | cons t tail =>
    rw [readOperators]
    split
    · rfl
    · rename_i k hk
      rw [if_neg]
      intro hop
      rw [Bool.and_eq_true, beq_iff_eq, decide_eq_true_eq] at hop
      exact absurd hop.2 (Nat.not_le_of_lt (h t rfl hop.1 k hk))

theorem readOperators_more {k : Nat} (ht : t.kind = .operator) (hk : binaryPower t.text = some k)
    (hpower : power ≤ k) (hy : Gives (readBinary stop (k + 1) ts) y r₁)
    (hz : Gives (readOperators stop power (.binary t.text x y) r₁) z r₂) :
    Gives (readOperators stop power x (t :: ts)) z r₂ := by
  obtain ⟨h₁, hy⟩ := hy
  obtain ⟨h₂, hz⟩ := hz
  refine ⟨by rw [List.length_cons]; omega, ?_⟩
  rw [readOperators]
  simp only [hk, ht, beq_self_eq_true, hpower, decide_true, Bool.and_self, if_true, hy, ok_bind, hz]
  rfl

theorem readUnary_more (ht : t.isUnary = true) (hx : Gives (readUnary stop ts) x r₁) :
    Gives (readUnary stop (t :: ts)) (.unary t.text x) r₁ := by
  obtain ⟨h₁, hx⟩ := hx
  refine ⟨by rw [List.length_cons]; omega, ?_⟩
  unfold Token.isUnary at ht
  rw [readUnary, if_pos ht, hx]
  rfl

theorem readUnary_plain (ht : t.isUnary = false) (hx : Gives (readPrimary stop (t :: ts)) x r₁)
    (hy : Gives (readPostfix stop x r₁) y r₂) : Gives (readUnary stop (t :: ts)) y r₂ := by
  obtain ⟨h₁, hx⟩ := hx
  obtain ⟨h₂, hy⟩ := hy
  refine ⟨by omega, ?_⟩
  unfold Token.isUnary at ht
  rw [readUnary, if_neg (by rw [ht]; exact Bool.false_ne_true), hx, ok_bind]
  simp only [hy, ok_bind]
  rfl

theorem readPostfix_stop (hdot : nextIs "." ts = false) (hopen : nextIs "(" ts = false) :
    Gives (readPostfix stop x ts) x ts := by
  refine ⟨Nat.le_refl _, ?_⟩
  rw [readPostfix, accept?_eq_none hdot]
  simp only [accept?_eq_none hopen]

theorem readPostfix_property {d : Token} (hd : d.is "." = true)
    (ht : t.kind = .ident ∨ t.kind = .member)
    (hy : Gives (readPostfix stop (.name t.text x none) ts) y r₁) :
    Gives (readPostfix stop x (d :: t :: ts)) y r₁ := by
  obtain ⟨h₁, hy⟩ := hy
  refine ⟨by simp only [List.length_cons]; omega, ?_⟩
  rw [readPostfix, accept?_cons hd]
  simp only [tokenOf_cons (show t.kind ∈ [TokenKind.ident, .member] by simpa using ht), ok_bind, hy]
  rfl

theorem readPostfix_call (ho : o.word = .sign "(") (hxs : Gives (readArgs stop ts) xs r₁)
    (hy : Gives (readPostfix stop (.call x xs) r₁) y r₂) :
    Gives (readPostfix stop x (o :: ts)) y r₂ := by
  obtain ⟨h₁, hxs⟩ := hxs
  obtain ⟨h₂, hy⟩ := hy
  refine ⟨by rw [List.length_cons]; omega, ?_⟩
  have hdot : nextIs "." (o :: ts) = false := Token.is_sign ho "."
  rw [readPostfix, accept?_eq_none hdot]
  simp only [accept?_cons (Token.is_sign ho "("), hxs, ok_bind, hy]
  rfl

theorem readArgs_none (ht : t.word = .sign ")") : Gives (readArgs stop (t :: ts)) [] ts := by
  refine ⟨Nat.lt_succ_self _, ?_⟩
  rw [readArgs, accept?_cons (Token.is_sign ht ")")]

theorem readArgs_some (h : nextIs ")" ts = false) (hxs : Gives (readArgList stop ts) xs r₁) :
    Gives (readArgs stop ts) xs r₁ := by
  obtain ⟨h₁, hxs⟩ := hxs
  refine ⟨h₁, ?_⟩
  rw [readArgs, accept?_eq_none h]
  exact hxs

theorem readArgList_last (hx : Gives (readAssign stop ts) x (t :: r₁)) (ht : t.word = .sign ")") :
    Gives (readArgList stop ts) [x] r₁ := by
  obtain ⟨h₁, hx⟩ := hx
  rw [List.length_cons] at h₁
  refine ⟨by omega, ?_⟩
  rw [readArgList, hx, ok_bind]
  simp only [accept?_cons (Token.is_sign ht ")")]
  rfl

theorem readArgList_more (hx : Gives (readAssign stop ts) x (t :: r₁)) (ht : t.word = .sign ",")
    (hxs : Gives (readArgList stop r₁) xs r₂) :
    Gives (readArgList stop ts) (x :: xs) r₂ := by
  obtain ⟨h₁, hx⟩ := hx
  obtain ⟨h₂, hxs⟩ := hxs
  rw [List.length_cons] at h₁
  refine ⟨by omega, ?_⟩
  have hclose : nextIs ")" (t :: r₁) = false := Token.is_sign ht ")"
  rw [readArgList, hx, ok_bind]
  simp only [accept?_eq_none hclose, expect_cons (Token.is_sign ht ","), ok_bind, hxs]
  rfl

theorem readPrimary_literal (ht : t.kind = .number ∨ t.kind = .string) :
    Gives (readPrimary stop (t :: ts)) (.literal t.text) ts := by
  refine ⟨Nat.lt_succ_self _, ?_⟩
  rw [readPrimary]
  rcases ht with ht | ht <;> simp only [ht]

theorem readPrimary_member (ht : t.kind = .member) :
    Gives (readPrimary stop (t :: ts)) (.name t.text .absent none) ts := by
  refine ⟨Nat.lt_succ_self _, ?_⟩
  rw [readPrimary]
  simp only [ht]

theorem readPrimary_word (ht : t.kind = .ident) (hfunction : t.text ≠ "function") :
    Gives (readPrimary stop (t :: ts)) (wordExpr t.text) ts := by
  refine ⟨Nat.lt_succ_self _, ?_⟩
  rw [readPrimary]
  by_cases hthis : t.text = "this"
  · simp [ht, hthis, wordExpr]
  by_cases hvalue : t.text = "true" ∨ t.text = "false" ∨ t.text = "null" ∨ t.text = "undefined"
  · simp [ht, hthis, wordExpr_literal hvalue, hvalue, or_assoc]
  · simp [ht, hthis, hfunction, hvalue, or_assoc, wordExpr]

theorem readPrimary_parens (ho : o.word = .sign "(") (hx : Gives (readAssign stop ts) x (c :: r₁))
    (hc : c.word = .sign ")") :
    Gives (readPrimary stop (o :: ts)) x r₁ := by
  obtain ⟨h₁, hx⟩ := hx
  obtain ⟨kind, text, offset⟩ := o
  cases ho
  rw [List.length_cons] at h₁
  refine ⟨by rw [List.length_cons]; omega, ?_⟩
  rw [readPrimary]
  simp only [beq_self_eq_true, if_true, hx, ok_bind, expect_cons (Token.is_sign hc ")")]
  rfl

theorem readPrimary_func {f : Function} (ht : t.word = .plain "function")
    (hf : Gives (readFunction stop ts) f r₁) : Gives (readPrimary stop (t :: ts)) (.func f) r₁ := by
  obtain ⟨h₁, hf⟩ := hf
  obtain ⟨kind, text, offset⟩ := t
  cases ht
  refine ⟨by rw [List.length_cons]; omega, ?_⟩
  rw [readPrimary]
  simp [hf]

end

/-! ### Function literals -/

section

variable {stop : Nat} {t : Token} {ts r₁ r₂ : List Token}

theorem readParams_none (ht : t.word = .sign ")") : Gives (readParams stop (t :: ts)) [] ts := by
  refine ⟨Nat.lt_succ_self _, ?_⟩
  rw [readParams, accept?_cons (Token.is_sign ht ")")]

theorem readParams_last (ht : t.word = .plain name) (hname : (name == ")") = false)
    (hc : c.word = .sign ")") :
    Gives (readParams stop (t :: c :: ts)) [name] ts := by
  obtain ⟨h₁, hnames⟩ : Gives (readParams stop (c :: ts)) [] ts := readParams_none hc
  refine ⟨by simp only [List.length_cons]; omega, ?_⟩
  have hhere : nextIs ")" (t :: c :: ts) = false := (Token.is_plain ht ")").trans hname
  have hnext : nextIs ")" (c :: ts) = true := Token.is_sign hc ")"
  rw [readParams, accept?_eq_none hhere]
  simp only [tokenOf_plain ht (List.mem_singleton_self _), ok_bind, hnext, if_true, hnames]
  rfl

theorem readParams_more {names : List String} (ht : t.word = .plain name)
    (hname : (name == ")") = false) (hc : c.word = .sign ",")
    (hnames : Gives (readParams stop ts) names r₁) :
    Gives (readParams stop (t :: c :: ts)) (name :: names) r₁ := by
  obtain ⟨h₁, hnames⟩ := hnames
  refine ⟨by simp only [List.length_cons]; omega, ?_⟩
  have hhere : nextIs ")" (t :: c :: ts) = false := (Token.is_plain ht ")").trans hname
  have hnext : nextIs ")" (c :: ts) = false := Token.is_sign hc ")"
  rw [readParams, accept?_eq_none hhere]
  simp only [tokenOf_plain ht (List.mem_singleton_self _), ok_bind, hnext, Bool.false_eq_true,
    if_false, expect_cons (Token.is_sign hc ","), hnames]
  rfl

theorem readBlock_of (ho : o.word = .sign "\x7b")
    (hss : Gives (readStmts stop (some "\x7d") ts) ss (c :: r₁)) :
    Gives (readBlock stop (o :: ts)) ss r₁ := by
  obtain ⟨h₁, hss⟩ := hss
  rw [List.length_cons] at h₁
  refine ⟨by rw [List.length_cons]; omega, ?_⟩
  rw [readBlock, expect_cons (Token.is_sign ho _), ok_bind]
  simp only [hss, ok_bind]
  rfl

theorem readFunction_anonymous {ps : List String} (ho : o.word = .sign "(")
    (hps : Gives (readParams stop ts) ps r₁) (hss : Gives (readBlock stop r₁) ss r₂) :
    Gives (readFunction stop (o :: ts)) (.declaring "" ps (.block ss)) r₂ := by
  obtain ⟨h₁, hps⟩ := hps
  obtain ⟨h₂, hss⟩ := hss
  refine ⟨by rw [List.length_cons]; omega, ?_⟩
  obtain ⟨kind, text, offset⟩ := o
  cases ho
  rw [readFunction]
  simp [tokenOf, expect, Token.is, ok_bind, hps, hss]

theorem readFunction_named {ps : List String} (ht : t.word = .plain name) (ho : o.word = .sign "(")
    (hps : Gives (readParams stop ts) ps r₁) (hss : Gives (readBlock stop r₁) ss r₂) :
    Gives (readFunction stop (t :: o :: ts)) (.declaring name ps (.block ss)) r₂ := by
  obtain ⟨h₁, hps⟩ := hps
  obtain ⟨h₂, hss⟩ := hss
  refine ⟨by simp only [List.length_cons]; omega, ?_⟩
  obtain ⟨kind, text, offset⟩ := t
  cases ht
  rw [readFunction]
  simp [tokenOf, expect_cons (Token.is_sign ho "("), ok_bind, hps, hss]

end

/-! ### Statements -/

section

variable {stop : Nat} {t : Token} {x : Expr} {s : Stmt} {ss : List Stmt} {ds : List Decl}
  {ts r₁ r₂ : List Token}

theorem readInit_none (h : nextIs "=" ts = false) : Gives (readInit stop ts) .absent ts := by
  refine ⟨Nat.le_refl _, ?_⟩
  rw [readInit, accept?_eq_none h]

theorem readInit_some (ht : t.word = .sign "=") (hx : Gives (readAssign stop ts) x r₁) :
    Gives (readInit stop (t :: ts)) x r₁ := by
  obtain ⟨h₁, hx⟩ := hx
  refine ⟨by rw [List.length_cons]; omega, ?_⟩
  rw [readInit, accept?_cons (Token.is_sign ht "=")]
  simp only [hx, ok_bind]
  rfl

theorem readDecls_last (ht : t.word = .plain name) (hx : Gives (readInit stop ts) x r₁)
    (h : nextIs "," r₁ = false) :
    Gives (readDecls stop (t :: ts)) [.mk name x] r₁ := by
  obtain ⟨h₁, hx⟩ := hx
  obtain ⟨kind, text, offset⟩ := t
  cases ht
  refine ⟨by rw [List.length_cons]; omega, ?_⟩
  rw [readDecls, tokenOf_cons (show TokenKind.ident ∈ [TokenKind.ident] by decide), ok_bind]
  simp only [hx, ok_bind, accept?_eq_none h]
  rfl

theorem readDecls_more (ht : t.word = .plain name) (hx : Gives (readInit stop ts) x (c :: r₁))
    (hc : c.word = .sign ",") (hds : Gives (readDecls stop r₁) ds r₂) :
    Gives (readDecls stop (t :: ts)) (.mk name x :: ds) r₂ := by
  obtain ⟨h₁, hx⟩ := hx
  obtain ⟨h₂, hds⟩ := hds
  obtain ⟨kind, text, offset⟩ := t
  cases ht
  rw [List.length_cons] at h₁
  refine ⟨by rw [List.length_cons]; omega, ?_⟩
  rw [readDecls, tokenOf_cons (show TokenKind.ident ∈ [TokenKind.ident] by decide), ok_bind]
  simp only [hx, ok_bind, accept?_cons (Token.is_sign hc ","), hds]
  rfl

theorem readStmt_empty (ht : t.word = .sign ";") : Gives (readStmt stop (t :: ts)) .absent ts := by
  refine ⟨Nat.lt_succ_self _, ?_⟩
  have hend : t.is ";" = true := Token.is_sign ht ";"
  rw [readStmt, if_pos hend]

theorem readStmt_block (ht : t.word = .sign "\x7b") (hss : Gives (readBlock stop (t :: ts)) ss r₁) :
    Gives (readStmt stop (t :: ts)) (.block ss) r₁ := by
  obtain ⟨h₁, hss⟩ := hss
  refine ⟨h₁, ?_⟩
  rw [readStmt]
  simp [Token.is_sign ht, hss]

theorem readStmt_var (ht : t.word = .plain "var") (hds : Gives (readDecls stop ts) ds (e :: r₁))
    (he : e.word = .sign ";") :
    Gives (readStmt stop (t :: ts)) (.var ds) r₁ := by
  obtain ⟨h₁, hds⟩ := hds
  rw [List.length_cons] at h₁
  refine ⟨by rw [List.length_cons]; omega, ?_⟩
  rw [readStmt]
  simp [Token.is_plain ht, hds, optionalEnd_cons (Token.is_sign he ";")]

theorem readStmt_bareReturn (ht : t.word = .plain "return") (he : e.word = .sign ";") :
    Gives (readStmt stop (t :: e :: ts)) (.ret .absent) ts := by
  refine ⟨by simp only [List.length_cons]; omega, ?_⟩
  have hnext : nextIs ";" (e :: ts) = true := Token.is_sign he ";"
  rw [readStmt]
  simp [Token.is_plain ht, hnext, optionalEnd_cons hnext]

theorem readStmt_return (ht : t.word = .plain "return") (hend : nextIs ";" ts = false)
    (hclose : nextIs "\x7d" ts = false) (hx : Gives (readAssign stop ts) x (e :: r₁))
    (he : e.word = .sign ";") :
    Gives (readStmt stop (t :: ts)) (.ret x) r₁ := by
  obtain ⟨h₁, hx⟩ := hx
  rw [List.length_cons] at h₁
  have hsome : ts.isEmpty = false := by
    cases ts with
    | nil => exact absurd h₁ (Nat.not_lt_zero _)
    | cons => rfl
  refine ⟨by rw [List.length_cons]; omega, ?_⟩
  rw [readStmt]
  simp [Token.is_plain ht, hend, hclose, hsome, hx, optionalEnd_cons (Token.is_sign he ";")]

theorem readStmt_expr (ht : ∀ text ∈ [";", "\x7b", "var", "return", "if"], t.is text = false)
    (hx : Gives (readAssign stop (t :: ts)) x (e :: r₁)) (he : e.word = .sign ";") :
    Gives (readStmt stop (t :: ts)) (.expr x) r₁ := by
  obtain ⟨h₁, hx⟩ := hx
  rw [List.length_cons] at h₁
  refine ⟨by omega, ?_⟩
  simp only [List.forall_mem_cons] at ht
  rw [readStmt]
  simp [ht, hx, optionalEnd_cons (Token.is_sign he ";")]

/-- A conditional up to its first branch. -/
theorem readStmt_cond (ht : t.word = .plain "if") (ho : o.word = .sign "(")
    (hx : Gives (readAssign stop ts) x (c :: r₁)) (hc : c.word = .sign ")")
    (hs : Gives (readStmt stop r₁) s r₂) (hnext : nextIs "else" r₂ = false) :
    Gives (readStmt stop (t :: o :: ts)) (.cond x s .absent) r₂ := by
  obtain ⟨h₁, hx⟩ := hx
  obtain ⟨h₂, hs⟩ := hs
  rw [List.length_cons] at h₁
  refine ⟨by simp only [List.length_cons]; omega, ?_⟩
  rw [readStmt]
  simp [Token.is_plain ht, expect_cons (Token.is_sign ho "("), ok_bind, hx,
    expect_cons (Token.is_sign hc ")"), hs, accept?_eq_none hnext]
  rfl

theorem readStmt_condElse {s' : Stmt} {r₃ : List Token} (ht : t.word = .plain "if")
    (ho : o.word = .sign "(") (hx : Gives (readAssign stop ts) x (c :: r₁))
    (hc : c.word = .sign ")") (hs : Gives (readStmt stop r₁) s (e :: r₂))
    (he : e.word = .plain "else") (hs' : Gives (readStmt stop r₂) s' r₃) :
    Gives (readStmt stop (t :: o :: ts)) (.cond x s s') r₃ := by
  obtain ⟨h₁, hx⟩ := hx
  obtain ⟨h₂, hs⟩ := hs
  obtain ⟨h₃, hs'⟩ := hs'
  rw [List.length_cons] at h₁ h₂
  refine ⟨by simp only [List.length_cons]; omega, ?_⟩
  rw [readStmt]
  simp [Token.is_plain ht, expect_cons (Token.is_sign ho "("), ok_bind, hx,
    expect_cons (Token.is_sign hc ")"), hs, accept?_cons (Token.is_plain he "else"), hs']

theorem readStmts_end {closer : Option String} (h : StopsAt closer ts) :
    Gives (readStmts stop closer ts) [] ts := by
  refine ⟨Nat.le_refl _, ?_⟩
  rcases h with ⟨rfl, rfl⟩ | ⟨t, tail, rfl, ht, rfl⟩
  · rw [readStmts]
    rfl
  · rw [readStmts, if_pos (by simp [ht])]

theorem readStmts_more {closer : Option String}
    (ht : t.kind = .operator → some t.text ≠ closer) (hs : Gives (readStmt stop (t :: ts)) s r₁)
    (hpresent : s ≠ .absent) (hss : Gives (readStmts stop closer r₁) ss r₂) :
    Gives (readStmts stop closer (t :: ts)) (s :: ss) r₂ := by
  obtain ⟨h₁, hs⟩ := hs
  obtain ⟨h₂, hss⟩ := hss
  refine ⟨by omega, ?_⟩
  have hgo : ¬ (t.kind == .operator && some t.text == closer) = true := by
    rw [Bool.and_eq_true, beq_iff_eq, beq_iff_eq]
    exact fun h => ht h.1 h.2
  rw [readStmts, if_neg hgo, hs, ok_bind]
  simp only [hss, ok_bind]
  cases s with
  | absent => exact absurd rfl hpresent
  | _ => rfl

end

end DefaultLowering.Fragment
