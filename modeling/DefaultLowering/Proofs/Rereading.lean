import DefaultLowering.Proofs.Acceptance

/-!
# Reading what has been written

The tokens of a written tree are read as that tree.  An expression is read in four kinds of place:
as a callee or a qualifier, as an operand of a unary operator, as an operand of binary operators,
and as a whole.  Each kind of place allows more to follow than the next one, and asks for more
parentheses.

- `ReadsBack`: the tokens are read as an expression in the places that ask for a binding power;
- `readsBack_of_wrapped`: with parentheses where they are needed, an expression can stand anywhere;
- `Expr.readsBack`, `Stmt.readsBack`: the words of a readable tree are read as the tree.
-/

namespace DefaultLowering.Fragment

variable {k stop : Nat} {c o t : Token} {ws : List Word} {text ident op : String}
  {us ts rest : List Token} {x : Expr} {s : Stmt}

/-! ## Section 1: What comes next -/

/-- No property and no argument list comes next. -/
structure NoSuffix (rest : List Token) : Prop where
  dot : nextIs "." rest = false
  opening : nextIs "(" rest = false

/-- A sign comes next that ends an expression. -/
def Ended (rest : List Token) : Prop :=
  ∃ t tail, rest = t :: tail ∧ (t.word = .sign ")" ∨ t.word = .sign "," ∨ t.word = .sign ";")

section

variable {t : Token} {text : String} {rest : List Token}

theorem noSuffix_sign (h : t.word = .sign text) (hdot : text ≠ ".") (hopen : text ≠ "(") :
    NoSuffix (t :: rest) where
  dot := (Token.is_sign h ".").trans (beq_eq_false_iff_ne.mpr hdot)
  opening := (Token.is_sign h "(").trans (beq_eq_false_iff_ne.mpr hopen)

theorem noTighter_sign {level : Nat} (h : t.word = .sign text) (hk : binaryPower text = some k)
    (hle : k ≤ level) : NoTighter level (t :: rest) := by
  obtain ⟨kind, found, offset⟩ := t
  cases h
  rintro _ ⟨⟩ - k' hk'
  rw [hk] at hk'
  cases hk'
  exact hle

theorem noTighter_none (h : t.word = .sign text) (hnone : binaryPower text = none) (level : Nat) :
    NoTighter level (t :: rest) := by
  obtain ⟨kind, found, offset⟩ := t
  cases h
  rintro _ ⟨⟩ - k hk
  rw [hnone] at hk
  cases hk

theorem NoTighter.mono {level level' : Nat} (h : NoTighter level rest) (hle : level ≤ level') :
    NoTighter level' rest :=
  fun t ht hkind k hk => Nat.le_trans (h t ht hkind k hk) hle

theorem Ended.noSuffix (h : Ended rest) : NoSuffix rest := by
  obtain ⟨t, tail, rfl, h | h | h⟩ := h <;> exact noSuffix_sign h (by decide) (by decide)

theorem Ended.noTighter (h : Ended rest) (level : Nat) : NoTighter level rest := by
  obtain ⟨t, tail, rfl, h | h | h⟩ := h <;> exact noTighter_none h rfl level

theorem Ended.nextIs_eq (h : Ended rest) : nextIs "=" rest = false := by
  obtain ⟨t, tail, rfl, h | h | h⟩ := h <;> exact Token.is_sign h "="

end

/-! ## Section 2: Expressions in their places -/

/-- The tokens are read as `x` in the place of a qualifier or a callee: what reading goes on with
    behind them, it goes on with behind `x`. -/
def ReadsTight (ts : List Token) (x : Expr) : Prop :=
  ∃ t tail, ts = t :: tail ∧ t.isUnary = false ∧ ∀ ⦃stop rest y r⦄,
    Gives (readPostfix stop x.unbound rest) y r →
      ∃ a r₀, Gives (readPrimary stop (t :: (tail ++ rest))) a r₀ ∧
        Gives (readPostfix stop a r₀) y r

/-- The tokens are read as the operand `x` of a unary operator. -/
def ReadsOperand (ts : List Token) (x : Expr) : Prop :=
  ∀ ⦃stop rest⦄, NoSuffix rest → Gives (readUnary stop (ts ++ rest)) x.unbound rest

/-- The tokens are read as an operand `x` of operators up to the level `min`. -/
def ReadsOperation (min : Nat) (ts : List Token) (x : Expr) : Prop :=
  ∀ ⦃stop power rest y r⦄, power ≤ min → NoSuffix rest → NoTighter min rest →
    Gives (readOperators stop power x.unbound rest) y r →
      Gives (readBinary stop power (ts ++ rest)) y r

/-- The tokens are read as the whole expression `x`. -/
def ReadsWhole (ts : List Token) (x : Expr) : Prop :=
  ∀ ⦃stop rest⦄, Ended rest → Gives (readAssign stop (ts ++ rest)) x.unbound rest

/-- The tokens are read as `x` in every place that asks for the binding power `min`. -/
structure ReadsBack (min : Nat) (ts : List Token) (x : Expr) : Prop where
  tight : min = powerPostfix → ReadsTight ts x
  operand : powerUnary ≤ min → ReadsOperand ts x
  operation : 1 ≤ min → ReadsOperation min ts x
  whole : min ≤ 1 → ReadsWhole ts x

section

variable {min : Nat} {ts : List Token} {x : Expr}

theorem ReadsTight.operand (h : ReadsTight ts x) : ReadsOperand ts x := by
  obtain ⟨t, tail, rfl, hunary, hread⟩ := h
  intro stop rest hrest
  obtain ⟨a, r₀, hprimary, hsuffixes⟩ := hread (readPostfix_stop hrest.dot hrest.opening)
  exact readUnary_plain hunary hprimary hsuffixes

theorem ReadsOperand.operation (h : ReadsOperand ts x) (min : Nat) : ReadsOperation min ts x := by
  intro stop power rest y r _ hrest _ hy
  exact readBinary_of (h hrest) hy

theorem ReadsOperation.whole (h : ReadsOperation 1 ts x) : ReadsWhole ts x := by
  intro stop rest hrest
  have hstop : Gives (readOperators stop 1 x.unbound rest) x.unbound rest :=
    readOperators_stop fun t ht hkind k hk =>
      Nat.lt_succ_of_le (hrest.noTighter 0 t ht hkind k hk)
  have hbinary := h (Nat.le_refl 1) hrest.noSuffix (hrest.noTighter 1) hstop
  exact readAssign_plain hbinary hrest.nextIs_eq

theorem ReadsOperand.readsBack (h : ReadsOperand ts x) (hmin : min ≤ powerUnary) :
    ReadsBack min ts x where
  tight heq := absurd hmin (by rw [heq]; decide)
  operand _ := h
  operation _ := h.operation min
  whole _ := (h.operation 1).whole

theorem ReadsTight.readsBack (h : ReadsTight ts x) : ReadsBack min ts x where
  tight _ := h
  operand _ := h.operand
  operation _ := h.operand.operation min
  whole _ := (h.operand.operation 1).whole

/-- An expression in parentheses. -/
theorem ReadsWhole.parens (h : ReadsWhole ts x)
    (ho : o.word = .sign "(") (hc : c.word = .sign ")") : ReadsTight (o :: (ts ++ [c])) x := by
  refine ⟨o, ts ++ [c], rfl, ?_, ?_⟩
  · obtain ⟨kind, text, offset⟩ := o
    cases ho
    rfl
  · intro stop rest y r hy
    have hinside : Gives (readAssign stop (ts ++ c :: rest)) x.unbound (c :: rest) :=
      h ⟨c, rest, rfl, .inl hc⟩
    refine ⟨x.unbound, rest, ?_, hy⟩
    rw [List.append_assoc]
    exact readPrimary_parens ho hinside hc

/-- Something that stands in parentheses where its place asks for more than its own power. -/
theorem readsBack_of_wrapped {own : Nat} (hts : ts.map Token.word = wrapped (own < min) ws)
    (hwhole : ∀ {ts}, ts.map Token.word = ws → ReadsWhole ts x)
    (hplain : ∀ {ts}, ts.map Token.word = ws → min ≤ own → ReadsBack min ts x) :
    ReadsBack min ts x := by
  by_cases hneeded : own < min
  · rw [wrapped, if_pos (by simpa using hneeded)] at hts
    obtain ⟨o, tail, rfl, ho, htail⟩ := List.map_eq_cons_iff.mp hts
    obtain ⟨ts', last, rfl, hinside, hlast⟩ := List.map_eq_append_iff.mp htail
    obtain ⟨c, nothing, rfl, hc, hnothing⟩ := List.map_eq_cons_iff.mp hlast
    rw [List.map_eq_nil_iff] at hnothing
    subst hnothing
    exact ((hwhole hinside).parens ho hc).readsBack
  · rw [wrapped, if_neg (by simpa using hneeded)] at hts
    exact hplain hts (Nat.not_lt.mp hneeded)

end

/-! ## Section 3: One expression from its parts -/

section

variable {min : Nat} {ts : List Token} {x y : Expr}

theorem map_singleton {w : Word} (h : ts.map Token.word = [w]) : ∃ t, ts = [t] ∧ t.word = w := by
  obtain ⟨t, tail, rfl, ht, htail⟩ := List.map_eq_cons_iff.mp h
  rw [List.map_eq_nil_iff] at htail
  exact ⟨t, by rw [htail], ht⟩

theorem map_concat {ws : List Word} {w : Word} (h : ts.map Token.word = ws ++ [w]) :
    ∃ us t, ts = us ++ [t] ∧ us.map Token.word = ws ∧ t.word = w := by
  obtain ⟨us, last, rfl, hus, hlast⟩ := List.map_eq_append_iff.mp h
  obtain ⟨t, rfl, ht⟩ := map_singleton hlast
  exact ⟨us, t, rfl, hus, ht⟩

theorem isUnary_eq_false (hkind : t.kind ≠ .operator)
    (htext : t.kind = .ident → t.text ≠ "typeof") : t.isUnary = false := by
  unfold Token.isUnary
  cases hk : t.kind with
  | operator => exact absurd hk hkind
  | ident => simpa using htext hk
  | _ => rfl

theorem isUnary_of_kind (h : t.kind ∉ [.operator, .ident]) : t.isUnary = false := by
  simp only [List.mem_cons, List.not_mem_nil, or_false, not_or] at h
  exact isUnary_eq_false h.1 fun hident => absurd hident h.2

/-- The token alone is read as the expression. -/
structure StandsFor (t : Token) (x : Expr) : Prop where
  unary : t.isUnary = false
  read : ∀ stop rest, Gives (readPrimary stop (t :: rest)) x rest

theorem standsFor_of_kind (hkind : t.kind ∉ [.operator, .ident])
    (hread : ∀ stop rest, Gives (readPrimary stop (t :: rest)) x rest) : StandsFor t x :=
  ⟨isUnary_of_kind hkind, hread⟩

theorem standsFor_word (hkind : t.kind = .ident) (htypeof : t.text ≠ "typeof")
    (hfunction : t.text ≠ "function") : StandsFor t (wordExpr t.text) where
  unary := isUnary_eq_false (by rw [hkind]; decide) fun _ => htypeof
  read _ _ := readPrimary_word hkind hfunction

theorem standsFor_this (ht : t.word = .plain "this") : StandsFor t .this := by
  have hkind : t.kind = .ident := congrArg Word.kind ht
  have htext : t.text = "this" := congrArg Word.text ht
  have hword := standsFor_word hkind (by rw [htext]; decide) (by rw [htext]; decide)
  rw [htext] at hword
  exact hword

theorem standsFor_literal (htext : isLiteralWord text = true) (ht : t.word = literalWord text) :
    StandsFor t (.literal text) := by
  have hkind : t.kind = (literalWord text).kind := congrArg Word.kind ht
  obtain rfl : t.text = text := congrArg Word.text ht
  simp only [literalWord] at hkind
  split at hkind
  · exact standsFor_of_kind (by rw [hkind]; decide) fun _ _ => readPrimary_literal (.inl hkind)
  split at hkind
  · exact standsFor_of_kind (by rw [hkind]; decide) fun _ _ => readPrimary_literal (.inr hkind)
  · rename_i hnumber hstring
    simp only [isLiteralWord, hnumber, hstring, Bool.false_or, decide_eq_true_eq, List.mem_cons,
      List.not_mem_nil, or_false] at htext
    have hnot : t.text ≠ "typeof" ∧ t.text ≠ "function" := by
      rcases htext with htext | htext | htext | htext <;> rw [htext] <;> decide
    have hword := standsFor_word hkind hnot.1 hnot.2
    rw [wordExpr_literal htext] at hword
    exact hword

/-- What the word of a name is read as. -/
theorem nameWord_cases (h : t.word = nameWord ident) :
    t.text = ident ∧ (t.kind = .member ∧ isMemberWord ident = true ∨
      t.kind = .ident ∧ isMemberWord ident = false) := by
  refine ⟨congrArg Word.text h, ?_⟩
  have hkind : t.kind = (nameWord ident).kind := congrArg Word.kind h
  simp only [nameWord] at hkind
  cases hmember : isMemberWord ident with
  | true =>
    unfold isMemberWord at hmember
    rw [if_pos hmember] at hkind
    exact .inl ⟨hkind, rfl⟩
  | false =>
    unfold isMemberWord at hmember
    rw [hmember] at hkind
    exact .inr ⟨hkind, rfl⟩

theorem standsFor_name
    (hident : isMemberWord ident = true ∨ isIdentWord ident = true ∧ ident ∉ expressionWords)
    (ht : t.word = nameWord ident) : StandsFor t (.name ident .absent none) := by
  obtain ⟨rfl, ⟨hkind, -⟩ | ⟨hkind, hmember⟩⟩ := nameWord_cases ht
  · exact standsFor_of_kind (by rw [hkind]; decide) fun _ _ => readPrimary_member hkind
  · have hfree : t.text ∉ expressionWords := (hident.resolve_left (by rw [hmember]; decide)).2
    simp only [expressionWords, List.mem_cons, List.not_mem_nil, or_false, not_or] at hfree
    have hname : wordExpr t.text = .name t.text .absent none := by simp [wordExpr, hfree]
    rw [← hname]
    exact standsFor_word hkind (by tauto) (by tauto)

theorem StandsFor.readsTight (h : StandsFor t x.unbound) : ReadsTight [t] x :=
  ⟨t, [], rfl, h.unary, fun stop rest _ _ hy => ⟨x.unbound, rest, h.read stop rest, hy⟩⟩

/-- A property, from its qualifier. -/
theorem ReadsTight.property {d : Token} {level : Option Nat} (hx : ReadsTight ts x)
    (hd : d.word = .sign ".") (ht : t.word = nameWord ident) :
    ReadsTight (ts ++ [d, t]) (.name ident x level) := by
  obtain ⟨t₀, tail, rfl, hunary, hread⟩ := hx
  refine ⟨t₀, tail ++ [d, t], rfl, hunary, ?_⟩
  intro stop rest y r hy
  obtain ⟨rfl, hkinds⟩ := nameWord_cases ht
  have hkind : t.kind = .ident ∨ t.kind = .member := hkinds.symm.imp And.left And.left
  have hmore := readPostfix_property (Token.is_sign hd ".") hkind hy
  rw [List.append_assoc]
  exact hread hmore

/-- A call, from its callee and its arguments. -/
theorem ReadsTight.call {args : List Expr} (hx : ReadsTight ts x) (ho : o.word = .sign "(")
    (hargs : ∀ stop rest, Gives (readArgs stop (us ++ rest)) (argsUnbound args) rest) :
    ReadsTight (ts ++ o :: us) (.call x args) := by
  obtain ⟨t₀, tail, rfl, hunary, hread⟩ := hx
  refine ⟨t₀, tail ++ o :: us, rfl, hunary, ?_⟩
  intro stop rest y r hy
  have hmore := readPostfix_call ho (hargs stop rest) hy
  rw [List.append_assoc]
  exact hread hmore

theorem ReadsOperand.unary (hx : ReadsOperand ts x) (hop : op ∈ ["!", "-", "+", "typeof"])
    (ho : o.word = unaryWord op) :
    ReadsOperand (o :: ts) (.unary op x) := by
  intro stop rest hrest
  have hunary : o.isUnary = true := by
    simp only [List.mem_cons, List.not_mem_nil, or_false] at hop
    obtain ⟨kind, text, offset⟩ := o
    rcases hop with rfl | rfl | rfl | rfl <;> cases ho <;> rfl
  obtain rfl : o.text = op := congrArg Word.text ho
  exact readUnary_more hunary (hx hrest)

/-- An operation, from its operands. -/
theorem ReadsOperation.binary (hx : ReadsOperation k ts x) (hk : binaryPower op = some k)
    (ho : o.word = .sign op) (hy : ReadsOperation (k + 1) us y) (hmin : min ≤ k) :
    ReadsOperation min (ts ++ o :: us) (.binary op x y) := by
  intro stop power rest z r hpower hrest hnext hz
  -- the right operand ends where an operator of its own level or a looser one comes
  have hright : Gives (readBinary stop (k + 1) (us ++ rest)) y.unbound rest :=
    hy (Nat.le_refl _) hrest (hnext.mono (by omega)) (readOperators_stop fun t ht hkind k' hk' =>
      Nat.lt_succ_of_le (Nat.le_trans (hnext t ht hkind k' hk') hmin))
  have hkind : o.kind = .operator := congrArg Word.kind ho
  obtain rfl : o.text = op := congrArg Word.text ho
  have hloop := readOperators_more hkind hk (Nat.le_trans hpower hmin) hright hz
  have hbehind : NoSuffix (o :: (us ++ rest)) := by
    refine noSuffix_sign ho ?_ ?_ <;> rintro heq <;> rw [heq] at hk <;> cases hk
  have hleft := hx (Nat.le_trans hpower hmin) hbehind (noTighter_sign ho hk (Nat.le_refl k)) hloop
  rw [List.append_assoc]
  exact hleft

/-- An assignment, from its operands. -/
theorem ReadsOperation.assign (hx : ReadsOperation 1 ts x) (ho : o.word = .sign "=")
    (hy : ReadsWhole us y) :
    ReadsWhole (ts ++ o :: us) (.binary "=" x y) := by
  intro stop rest hrest
  have hnone : NoTighter 0 (o :: (us ++ rest)) := noTighter_none ho rfl 0
  have hstop : Gives (readOperators stop 1 x.unbound (o :: (us ++ rest))) x.unbound
      (o :: (us ++ rest)) :=
    readOperators_stop fun t ht hkind k hk => Nat.lt_succ_of_le (hnone t ht hkind k hk)
  have hleft := hx (Nat.le_refl 1) (noSuffix_sign ho (by decide) (by decide))
    (noTighter_none ho rfl 1) hstop
  have hwhole := readAssign_equals hleft (Token.is_sign ho "=") (hy hrest)
  rw [List.append_assoc]
  exact hwhole

end

/-! ## Section 4: Lists -/

/-- Only certain signs and words begin an expression. -/
theorem Opening.nextIs_eq {reserved : List String} (h : Opening reserved ws)
    (hts : ts.map Token.word = ws) (rest : List Token) (hsign : text ∉ ["(", "!", "-", "+"])
    (hword : isIdentWord text = false) :
    nextIs text (ts ++ rest) = false := by
  obtain ⟨w, tail, rfl, hw⟩ := h
  obtain ⟨t, ts, rfl, rfl, -⟩ := List.map_eq_cons_iff.mp hts
  show t.is text = false
  rw [Bool.eq_false_iff]
  intro his
  unfold Token.is at his
  rw [Bool.and_eq_true, Bool.or_eq_true, beq_iff_eq, beq_iff_eq, beq_iff_eq] at his
  obtain ⟨hkind | hkind, rfl⟩ := his
  · exact hsign (hw.sign hkind)
  · have hlexeme : Word.isLexeme ⟨t.kind, t.text⟩ = true := hw.lexeme
    rw [hkind] at hlexeme
    exact absurd hlexeme (by rw [show Word.isLexeme ⟨.ident, t.text⟩ = false from hword]; decide)

section

variable {stop : Nat} {rest : List Token}

theorem readArgList_listed (hc : c.word = .sign ")") {xs : List Expr}
    (h : ∀ y ∈ x :: xs, ∀ ts, ts.map Token.word = y.words (powerAssign + 1) → ReadsWhole ts y)
    (hts : ts.map Token.word = listed (argsWords (x :: xs))) :
    Gives (readArgList stop (ts ++ c :: rest)) (argsUnbound (x :: xs)) rest := by
  induction xs generalizing x ts with
  | nil =>
    have hlast : ts.map Token.word = x.words (powerAssign + 1) := by
      simpa [argsWords, listed] using hts
    have hx : Gives (readAssign stop (ts ++ c :: rest)) x.unbound (c :: rest) :=
      h x (List.mem_cons_self ..) ts hlast ⟨c, rest, rfl, .inl hc⟩
    exact readArgList_last hx hc
  | cons y xs ih =>
    have hsplit : ts.map Token.word = x.words (powerAssign + 1) ++ .sign "," ::
        listed (argsWords (y :: xs)) := by
      simpa [argsWords, listed] using hts
    obtain ⟨front, tail, rfl, hfront, htail⟩ := List.map_eq_append_iff.mp hsplit
    obtain ⟨m, others, rfl, hm, hothers⟩ := List.map_eq_cons_iff.mp htail
    have hx : Gives (readAssign stop (front ++ m :: (others ++ c :: rest))) x.unbound
        (m :: (others ++ c :: rest)) :=
      h x (List.mem_cons_self ..) front hfront ⟨m, others ++ c :: rest, rfl, .inr (.inl hm)⟩
    have hrest := ih (fun z hz => h z (List.mem_cons_of_mem _ hz)) hothers
    rw [List.append_assoc]
    exact readArgList_more hx hm hrest

theorem readArgs_listed (hc : c.word = .sign ")") {xs : List Expr}
    (h : ∀ y ∈ xs, ∀ ts, ts.map Token.word = y.words (powerAssign + 1) → ReadsWhole ts y)
    (hopening : ∀ y ∈ xs, Opening expressionWords (y.words (powerAssign + 1)))
    (hts : ts.map Token.word = listed (argsWords xs)) :
    Gives (readArgs stop (ts ++ c :: rest)) (argsUnbound xs) rest := by
  cases xs with
  | nil =>
    obtain rfl : ts = [] := by simpa [argsWords, listed] using hts
    exact readArgs_none hc
  | cons x xs =>
    have hfirst : Opening expressionWords (listed (argsWords (x :: xs))) :=
      (hopening x (List.mem_cons_self ..)).append _
    exact readArgs_some (hfirst.nextIs_eq hts _ (by decide) (by decide))
      (readArgList_listed hc h hts)

theorem readParams_listed (hc : c.word = .sign ")") {ps : List String}
    (h : ps.all isIdentWord = true)
    (hts : ts.map Token.word = listed (ps.map fun p => [.plain p])) :
    Gives (readParams stop (ts ++ c :: rest)) ps rest := by
  have hnot : ∀ {p}, isIdentWord p = true → (p == ")") = false := by
    intro p hp
    refine beq_eq_false_iff_ne.mpr ?_
    rintro rfl
    exact absurd hp (by decide)
  induction ps generalizing ts with
  | nil =>
    obtain rfl : ts = [] := by simpa [listed] using hts
    exact readParams_none hc
  | cons p ps ih =>
    simp only [List.all_cons, Bool.and_eq_true] at h
    cases ps with
    | nil =>
      obtain ⟨t, rfl, ht⟩ := map_singleton (by simpa [listed] using hts)
      exact readParams_last ht (hnot h.1) hc
    | cons q ps =>
      have hsplit : ts.map Token.word = .plain p :: .sign "," ::
          listed ((q :: ps).map fun p => [.plain p]) := by
        simpa [listed] using hts
      obtain ⟨t, tail, rfl, ht, htail⟩ := List.map_eq_cons_iff.mp hsplit
      obtain ⟨m, others, rfl, hm, hothers⟩ := List.map_eq_cons_iff.mp htail
      exact readParams_more ht (hnot h.1) hm (ih h.2 hothers)

/-- The tokens are read as a declarator. -/
def ReadsDecl (ts : List Token) (d : Decl) : Prop :=
  ∃ t tail, ts = t :: tail ∧ t.word = .plain d.name ∧ ∀ ⦃stop rest⦄, Ended rest →
    Gives (readInit stop (tail ++ rest)) d.init.unbound rest

theorem readDecls_listed {e : Token} (he : e.word = .sign ";") {d : Decl} {ds : List Decl}
    (h : ∀ d' ∈ d :: ds, ∀ ts, ts.map Token.word = d'.words → ReadsDecl ts d')
    (hts : ts.map Token.word = listed (declsWords (d :: ds))) :
    Gives (readDecls stop (ts ++ e :: rest)) (declsUnbound (d :: ds)) (e :: rest) := by
  induction ds generalizing d ts with
  | nil =>
    have hlast : ts.map Token.word = d.words := by simpa [declsWords, listed] using hts
    obtain ⟨t, tail, rfl, ht, hinit⟩ := h d (List.mem_cons_self ..) ts hlast
    obtain ⟨name, init⟩ := d
    exact readDecls_last ht (hinit ⟨e, rest, rfl, .inr (.inr he)⟩) (Token.is_sign he ",")
  | cons d' ds ih =>
    have hsplit : ts.map Token.word = d.words ++ .sign "," :: listed (declsWords (d' :: ds)) := by
      simpa [declsWords, listed] using hts
    obtain ⟨front, tail, rfl, hfront, htail⟩ := List.map_eq_append_iff.mp hsplit
    obtain ⟨m, others, rfl, hm, hothers⟩ := List.map_eq_cons_iff.mp htail
    obtain ⟨t, front, rfl, ht, hinit⟩ := h d (List.mem_cons_self ..) front hfront
    obtain ⟨name, init⟩ := d
    have hrest := ih (fun z hz => h z (List.mem_cons_of_mem _ hz)) hothers
    have hfirst : Gives (readInit stop (front ++ m :: (others ++ e :: rest))) init.unbound
        (m :: (others ++ e :: rest)) := hinit ⟨m, _, rfl, .inr (.inl hm)⟩
    rw [List.append_assoc]
    exact readDecls_more ht hfirst hm hrest

end

/-! ## Section 5: Statements -/

/-- The tokens are read as the statement `s`, unless an `else` follows that it would take. -/
def ReadsStmt (ts : List Token) (s : Stmt) : Prop :=
  ∀ ⦃stop rest⦄, (s.isOpen = true → nextIs "else" rest = false) →
    Gives (readStmt stop (ts ++ rest)) s.unbound rest

/-- The node is spelled properly, legible, and not taken for another one. -/
def Node.isReadable (n : Node) : Bool := n.isProper expressionWords && n.isClear

theorem Node.isSpelled_of_readable (n : Node) (h : n.all Node.isReadable = true) :
    n.isSpelled expressionWords = true := by
  have hself := n.of_all rfl rfl h
  simp only [Node.isReadable, Node.isProper, Bool.and_eq_true] at hself
  exact hself.1.1

theorem Expr.opening_of_readable (hx : x.all Node.isReadable = true) (hpresent : x.isAbsent = false)
    (min : Nat) : Opening expressionWords (x.words min) :=
  x.opening_words ((Part.expr x).all_of_all (fun n h _ => n.isSpelled_of_readable h) hx hx) hpresent min

/-- A statement does not begin with a closing brace. -/
theorem Stmt.words_eq_cons (hs : s.all Node.isReadable = true) :
    ∃ w tail, s.words = w :: tail ∧ (w.kind = .operator → w.text ≠ "\x7d") := by
  cases s with
  | expr =>
    simp only [Stmt.all, Node.isReadable, Node.isProper, Node.isSpelled, Bool.and_eq_true,
      Bool.not_eq_true'] at hs
    obtain ⟨w, tail, hwords, hw⟩ := Expr.opening_of_readable hs.2 hs.1.1.1 powerAssign
    refine ⟨w, tail ++ [.sign ";"], by rw [Stmt.words, hwords]; rfl, fun hkind heq => ?_⟩
    have hsign := hw.sign hkind
    rw [heq] at hsign
    exact absurd hsign (by decide)
  | absent | block | ret | var | cond =>
    rw [Stmt.words]
    exact ⟨_, _, rfl, by decide⟩

theorem StopsAt.nextIs_eq {closer : Option String} (h : StopsAt closer rest)
    (hcloser : ∀ text ∈ closer, text = "\x7d") : nextIs "else" rest = false := by
  rcases h with ⟨-, rfl⟩ | ⟨t, tail, rfl, -, rfl⟩
  · rfl
  · have htext := hcloser t.text rfl
    show t.is "else" = false
    simp [Token.is, htext]

theorem nextIs_of_not_beginsWith (hts : ts.map Token.word = ws) (hws : ws ≠ [])
    (h : beginsWith text ws = false) :
    nextIs text (ts ++ rest) = false := by
  subst hts
  cases ts with
  | nil => exact absurd rfl hws
  | cons t =>
    have hne : t.text ≠ text := by simpa [beginsWith, Token.word] using h
    show t.is text = false
    simp [Token.is, hne]

theorem Stmt.unbound_ne_absent (h : s.isAbsent = false) : s.unbound ≠ .absent := by
  cases s with
  | absent => cases h
  | _ => exact nofun

theorem readStmts_words {closer : Option String} (hcloser : ∀ text ∈ closer, text = "\x7d")
    {ss : List Stmt} (hss : stmtsAll Node.isReadable ss = true)
    (hpresent : ss.all (!·.isAbsent) = true) (helse : noStrayElse ss = true)
    (h : ∀ s ∈ ss, ∀ ts, ts.map Token.word = s.words → ReadsStmt ts s)
    (hts : ts.map Token.word = stmtsWords ss) (hstop : StopsAt closer rest) :
    Gives (readStmts stop closer (ts ++ rest)) (stmtsUnbound ss) rest := by
  induction ss generalizing ts with
  | nil =>
    obtain rfl : ts = [] := by simpa [stmtsWords] using hts
    exact readStmts_end hstop
  | cons s ss ih =>
    simp only [stmtsAll, List.all_cons, Bool.and_eq_true, Bool.not_eq_true'] at hss hpresent
    rw [stmtsWords] at hts
    obtain ⟨front, others, rfl, hfront, hothers⟩ := List.map_eq_append_iff.mp hts
    -- the statement that follows is not taken for a second branch
    have hnext : s.isOpen = true → nextIs "else" (others ++ rest) = false := by
      intro hopen
      cases ss with
      | nil =>
        obtain rfl : others = [] := by simpa [stmtsWords] using hothers
        exact hstop.nextIs_eq hcloser
      | cons =>
        simp only [noStrayElse, hopen, Bool.true_and, Bool.and_eq_true, Bool.not_eq_true'] at helse
        simp only [stmtsAll, Bool.and_eq_true] at hss
        obtain ⟨w, tail, hwords, -⟩ := Stmt.words_eq_cons hss.2.1
        rw [stmtsWords, hwords] at hothers
        rw [hwords] at helse
        exact nextIs_of_not_beginsWith hothers (List.cons_ne_nil _ _) helse.1
    have helse' : noStrayElse ss = true := by
      cases ss with
      | nil => rfl
      | cons =>
        simp only [noStrayElse, Bool.and_eq_true] at helse
        exact helse.2
    have hrest := ih hss.2 hpresent.2 helse' (fun z hz => h z (List.mem_cons_of_mem _ hz)) hothers
    have hfirst : Gives (readStmt stop (front ++ (others ++ rest))) s.unbound (others ++ rest) :=
      h s (List.mem_cons_self ..) front hfront hnext
    obtain ⟨w, tail, hwords, hw⟩ := Stmt.words_eq_cons hss.1
    rw [hwords] at hfront
    obtain ⟨t, front, rfl, rfl, -⟩ := List.map_eq_cons_iff.mp hfront
    rw [List.append_assoc]
    refine readStmts_more ?_ hfirst ?_ hrest
    · intro hkind hsome
      exact hw hkind (hcloser t.text hsome.symm)
    · exact Stmt.unbound_ne_absent hpresent.1

/-! ## Section 6: Every readable tree -/

theorem words_binary (hk : binaryPower op = some k) (x y : Expr) (min : Nat) :
    (Expr.binary op x y).words min =
      wrapped (k < min) (x.words k ++ .sign op :: y.words (k + 1)) := by
  have hop : op ≠ "=" := by
    rintro rfl
    cases hk
  rw [Expr.words]
  simp only [if_neg hop, hk, Option.getD_some]

theorem words_assign (x y : Expr) (min : Nat) : (Expr.binary "=" x y).words min =
    wrapped (powerAssign < min)
      (x.words (powerAssign + 1) ++ .sign "=" :: y.words powerAssign) := by
  rw [Expr.words]
  rfl

theorem ReadsOperation.readsBack {min : Nat} (hpos : 1 ≤ k) (hk : k ≤ 6)
    (h : ∀ m ≤ k, ReadsOperation m ts x) (hmin : min ≤ k) : ReadsBack min ts x where
  tight heq := absurd (Nat.le_trans hmin hk) (by rw [heq]; decide)
  operand hle := absurd (Nat.le_trans hle (Nat.le_trans hmin hk)) (by decide)
  operation _ := h min hmin
  whole _ := (h 1 hpos).whole

theorem ReadsWhole.readsBack (h : ReadsWhole ts x) :
    ReadsBack powerAssign ts x where
  tight heq := absurd heq (by decide)
  operand hle := absurd hle (by decide)
  operation hle := absurd hle (by decide)
  whole _ := h

/-- The tokens are read as the function literal `f`. -/
def ReadsFunction (ts : List Token) (f : Function) : Prop :=
  ∃ t tail, ts = t :: tail ∧ t.word = .plain "function" ∧ ∀ stop rest,
    Gives (readFunction stop (tail ++ rest)) f.unbound rest

theorem ReadsFunction.tight {f : Function} (h : ReadsFunction ts f) :
    ReadsTight ts (.func f) := by
  obtain ⟨t, tail, rfl, ht, hread⟩ := h
  have hkind : t.kind = .ident := congrArg Word.kind ht
  have htext : t.text = "function" := congrArg Word.text ht
  have hunary : t.isUnary = false := isUnary_eq_false (by rw [hkind]; decide) fun _ => by
    rw [htext]; decide
  exact ⟨t, tail, rfl, hunary, fun stop rest y r hy =>
    ⟨_, rest, readPrimary_func ht (hread stop rest), hy⟩⟩

/-- A block, from its statements. -/
theorem readBlock_words {ss : List Stmt} (hself : Node.isReadable (.stmt (.block ss)) = true)
    (hss : stmtsAll Node.isReadable ss = true)
    (h : ∀ s ∈ ss, ∀ ts, ts.map Token.word = s.words → ReadsStmt ts s) (ho : o.word = .sign "\x7b")
    (hus : us.map Token.word = stmtsWords ss) (hc : c.word = .sign "\x7d") :
    Gives (readBlock stop (o :: (us ++ [c]) ++ rest)) (stmtsUnbound ss) rest := by
  simp only [Node.isReadable, Node.isProper, Node.isSpelled, Node.isClear,
    Bool.and_eq_true] at hself
  have hstop : StopsAt (some "\x7d") (c :: rest) :=
    .inr ⟨c, rest, rfl, congrArg Word.kind hc, congrArg some (congrArg Word.text hc).symm⟩
  have hcloser : ∀ text ∈ some "\x7d", text = "\x7d" := fun text h => (Option.mem_some.mp h).symm
  have hread : Gives (readStmts stop (some "\x7d") (us ++ c :: rest)) (stmtsUnbound ss)
      (c :: rest) :=
    readStmts_words hcloser hss hself.1.1 hself.2 h hus hstop
  rw [List.cons_append, List.append_assoc]
  exact readBlock_of ho hread

/-- An expression statement, from its expression. -/
theorem readStmt_plain {e : Token} (hopening : Opening expressionWords (x.words powerAssign))
    (hclear : ∀ text ∈ ["var", "return", "if"], beginsWith text (x.words powerAssign) = false)
    (hts : ts.map Token.word = x.words powerAssign) (he : e.word = .sign ";")
    (hx : ReadsWhole ts x) :
    Gives (readStmt stop (ts ++ [e] ++ rest)) (.expr x.unbound) rest := by
  have hread : Gives (readAssign stop (ts ++ e :: rest)) x.unbound (e :: rest) :=
    hx ⟨e, rest, rfl, .inr (.inr he)⟩
  obtain ⟨w, tail, hwords, hw⟩ := hopening
  have hnext : ∀ text ∈ [";", "\x7b", "var", "return", "if"],
      nextIs text (ts ++ e :: rest) = false := by
    simp only [List.forall_mem_cons] at hclear ⊢
    have hopening : Opening expressionWords (x.words powerAssign) := ⟨w, tail, hwords, hw⟩
    have hne : x.words powerAssign ≠ [] := by rw [hwords]; exact List.cons_ne_nil _ _
    exact ⟨hopening.nextIs_eq hts _ (by decide) (by decide),
      hopening.nextIs_eq hts _ (by decide) (by decide), nextIs_of_not_beginsWith hts hne hclear.1,
      nextIs_of_not_beginsWith hts hne hclear.2.1, nextIs_of_not_beginsWith hts hne hclear.2.2.1,
      List.forall_mem_nil _⟩
  rw [hwords] at hts
  obtain ⟨t, ts, rfl, -, -⟩ := List.map_eq_cons_iff.mp hts
  rw [List.append_assoc]
  exact readStmt_expr hnext hread he

theorem Stmt.isAbsent_eq_false (h : s ≠ .absent) : s.isAbsent = false := by
  cases s with
  | absent => exact absurd rfl h
  | _ => rfl

theorem Stmt.isOpen_cond {test : Expr} {yes no : Stmt} (h : no.isAbsent = false) :
    (Stmt.cond test yes no).isOpen = no.isOpen := by
  cases no with
  | absent => cases h
  | _ => rfl

mutual

theorem Expr.readsBack (x : Expr) (hx : x.all Node.isReadable = true)
    (hpresent : x.isAbsent = false) {min : Nat} {ts : List Token}
    (hts : ts.map Token.word = x.words min) : ReadsBack min ts x := by
  cases x with
  | absent => cases hpresent
  | name ident q level =>
    simp only [Expr.all, Node.isReadable, Node.isProper, Node.isSpelled, Bool.and_eq_true,
      Bool.or_eq_true, Bool.not_eq_true', decide_eq_true_eq] at hx
    rw [Expr.words] at hts
    by_cases hq : q = .absent
    · subst hq
      have hident : isMemberWord ident = true ∨
          isIdentWord ident = true ∧ ident ∉ expressionWords := by
        simpa [Expr.isAbsent] using hx.1.1.1
      have hsingle : ts.map Token.word = [nameWord ident] := by
        simpa [Expr.words, Expr.isAbsent, joint] using hts
      obtain ⟨t, rfl, ht⟩ := map_singleton hsingle
      have hstands : StandsFor t (Expr.name ident .absent level).unbound := standsFor_name hident ht
      exact hstands.readsTight.readsBack
    · have hqualified := Expr.isAbsent_eq_false hq
      have hsplit : ts.map Token.word = q.words powerPostfix ++ [.sign ".", nameWord ident] := by
        simpa [joint, hqualified] using hts
      obtain ⟨front, last, rfl, hfront, hlast⟩ := List.map_eq_append_iff.mp hsplit
      obtain ⟨d, tail, rfl, hd, htail⟩ := List.map_eq_cons_iff.mp hlast
      obtain ⟨t, rfl, ht⟩ := map_singleton htail
      exact (((q.readsBack hx.2 hqualified hfront).tight rfl).property hd ht).readsBack
  | call callee args =>
    simp only [Expr.all, Node.isReadable, Node.isProper, Node.isSpelled, Bool.and_eq_true,
      Bool.not_eq_true', List.all_eq_true] at hx
    rw [Expr.words] at hts
    obtain ⟨front, tail, rfl, hfront, htail⟩ := List.map_eq_append_iff.mp hts
    obtain ⟨o, tail, rfl, ho, htail⟩ := List.map_eq_cons_iff.mp htail
    obtain ⟨us, c, rfl, hus, hc⟩ := map_concat htail
    have hcallee := (callee.readsBack hx.1.2 hx.1.1.1.1.1 hfront).tight rfl
    have hargs := args_readBack args hx.2 hx.1.1.1.1.2
    refine (hcallee.call ho fun stop rest => ?_).readsBack
    rw [List.append_assoc]
    exact readArgs_listed hc (fun y hy => (hargs y hy).2) (fun y hy => (hargs y hy).1) hus
  | this =>
    rw [Expr.words] at hts
    obtain ⟨t, rfl, ht⟩ := map_singleton hts
    have hstands : StandsFor t Expr.this.unbound := standsFor_this ht
    exact hstands.readsTight.readsBack
  | literal text =>
    simp only [Expr.all, Node.isReadable, Node.isProper, Node.isSpelled, Bool.and_eq_true] at hx
    rw [Expr.words] at hts
    obtain ⟨t, rfl, ht⟩ := map_singleton hts
    have hstands : StandsFor t (Expr.literal text).unbound := standsFor_literal hx.1.1 ht
    exact hstands.readsTight.readsBack
  | binary op x y =>
    simp only [Expr.all, Node.isReadable, Node.isProper, Node.isSpelled, Bool.and_eq_true,
      Bool.not_eq_true', Bool.or_eq_true, decide_eq_true_eq] at hx
    cases hop : binaryPower op with
    | none =>
      obtain rfl : op = "=" := hx.1.1.1.1.1.1.resolve_right (by rw [hop]; decide)
      rw [words_assign] at hts
      -- an assignment is read as a whole, so elsewhere it stands in brackets
      have hwhole : ∀ {ts}, ts.map Token.word = x.words (powerAssign + 1) ++ .sign "=" ::
          y.words powerAssign → ReadsWhole ts (.binary "=" x y) := by
        intro ts hts
        obtain ⟨front, tail, rfl, hfront, htail⟩ := List.map_eq_append_iff.mp hts
        obtain ⟨o, us, rfl, ho, hus⟩ := List.map_eq_cons_iff.mp htail
        have hleft := (x.readsBack hx.1.2 hx.1.1.1.1.1.2 hfront).operation (Nat.le_refl 1)
        exact hleft.assign ho ((y.readsBack hx.2 hx.1.1.1.1.2 hus).whole (Nat.zero_le 1))
      refine readsBack_of_wrapped hts hwhole fun hplain hmin => ?_
      obtain rfl := Nat.le_zero.mp hmin
      exact (hwhole hplain).readsBack
    | some k =>
      have hbounds := binaryPower_bounds hop
      rw [words_binary hop] at hts
      -- read from every power up to its own on
      have hoperation : ∀ {ts}, ts.map Token.word = x.words k ++ .sign op :: y.words (k + 1) →
          ∀ m ≤ k, ReadsOperation m ts (.binary op x y) := by
        intro ts hts m hm
        obtain ⟨front, tail, rfl, hfront, htail⟩ := List.map_eq_append_iff.mp hts
        obtain ⟨o, us, rfl, ho, hus⟩ := List.map_eq_cons_iff.mp htail
        have hleft := (x.readsBack hx.1.2 hx.1.1.1.1.1.2 hfront).operation hbounds.1
        have hright := (y.readsBack hx.2 hx.1.1.1.1.2 hus).operation (by omega)
        exact hleft.binary hop ho hright hm
      refine readsBack_of_wrapped hts (fun hts => (hoperation hts 1 hbounds.1).whole) ?_
      exact fun hts hmin => ReadsOperation.readsBack hbounds.1 hbounds.2 (hoperation hts) hmin
  | unary op x =>
    simp only [Expr.all, Node.isReadable, Node.isProper, Node.isSpelled, Bool.and_eq_true,
      Bool.not_eq_true', decide_eq_true_eq] at hx
    rw [Expr.words] at hts
    have hoperand : ∀ {ts}, ts.map Token.word = unaryWord op :: x.words powerUnary →
        ReadsOperand ts (.unary op x) := by
      intro ts hts
      obtain ⟨o, us, rfl, ho, hus⟩ := List.map_eq_cons_iff.mp hts
      have hread := (x.readsBack hx.2 hx.1.1.1.2 hus).operand (Nat.le_refl _)
      exact hread.unary hx.1.1.1.1 ho
    refine readsBack_of_wrapped hts (fun hts => ((hoperand hts).operation 1).whole) ?_
    exact fun hts hmin => (hoperand hts).readsBack hmin
  | func f =>
    simp only [Expr.all, Bool.and_eq_true] at hx
    rw [Expr.words] at hts
    have htight : ∀ {ts}, ts.map Token.word = f.words → ReadsTight ts (.func f) :=
      fun hts => (f.readsBack hx.2 hts).tight
    refine readsBack_of_wrapped hts (fun hts => ((htight hts).operand.operation 1).whole) ?_
    exact fun hts _ => (htight hts).readsBack

theorem args_readBack (xs : List Expr) (hxs : argsAll Node.isReadable xs = true)
    (hpresent : ∀ x ∈ xs, x.isAbsent = false) :
    ∀ x ∈ xs, Opening expressionWords (x.words (powerAssign + 1)) ∧
      ∀ ts, ts.map Token.word = x.words (powerAssign + 1) → ReadsWhole ts x := by
  cases xs with
  | nil => exact List.forall_mem_nil _
  | cons x xs =>
    simp only [argsAll, Bool.and_eq_true] at hxs
    rw [List.forall_mem_cons] at hpresent ⊢
    refine ⟨⟨Expr.opening_of_readable hxs.1 hpresent.1 _, fun ts hts => ?_⟩,
      args_readBack xs hxs.2 hpresent.2⟩
    exact (x.readsBack hxs.1 hpresent.1 hts).whole (Nat.le_refl 1)

theorem Stmt.readsBack (s : Stmt) (hs : s.all Node.isReadable = true) {ts : List Token}
    (hts : ts.map Token.word = s.words) : ReadsStmt ts s := by
  cases s with
  | absent =>
    obtain ⟨t, rfl, ht⟩ := map_singleton (by simpa [Stmt.words] using hts)
    exact fun stop rest _ => readStmt_empty ht
  | block ss =>
    simp only [Stmt.all, Bool.and_eq_true] at hs
    rw [Stmt.words] at hts
    obtain ⟨o, tail, rfl, ho, htail⟩ := List.map_eq_cons_iff.mp hts
    obtain ⟨us, c, rfl, hus, hc⟩ := map_concat htail
    intro stop rest _
    exact readStmt_block ho (readBlock_words hs.1 hs.2 (stmts_readBack ss hs.2) ho hus hc)
  | expr x =>
    simp only [Stmt.all, Node.isReadable, Node.isProper, Node.isSpelled, Node.isClear,
      Bool.and_eq_true, Bool.not_eq_true', List.all_eq_true] at hs
    rw [Stmt.words] at hts
    obtain ⟨front, e, rfl, hfront, he⟩ := map_concat hts
    have hopening := Expr.opening_of_readable hs.2 hs.1.1.1 powerAssign
    intro stop rest _
    exact readStmt_plain hopening hs.1.2 hfront he
      ((x.readsBack hs.2 hs.1.1.1 hfront).whole (Nat.zero_le 1))
  | ret x =>
    simp only [Stmt.all, Bool.and_eq_true] at hs
    rw [Stmt.words] at hts
    obtain ⟨t, tail, rfl, ht, htail⟩ := List.map_eq_cons_iff.mp hts
    obtain ⟨us, e, rfl, hus, he⟩ := map_concat htail
    intro stop rest _
    by_cases hx : x = .absent
    · subst hx
      obtain rfl : us = [] := by simpa [Expr.words] using hus
      exact readStmt_bareReturn ht he
    · have hpresent := Expr.isAbsent_eq_false hx
      have hopening := Expr.opening_of_readable hs.2 hpresent powerAssign
      have hvalue : Gives (readAssign stop (us ++ e :: rest)) x.unbound (e :: rest) :=
        (x.readsBack hs.2 hpresent hus).whole (Nat.zero_le 1) ⟨e, rest, rfl, .inr (.inr he)⟩
      rw [List.cons_append, List.append_assoc]
      exact readStmt_return ht (hopening.nextIs_eq hus _ (by decide) (by decide))
        (hopening.nextIs_eq hus _ (by decide) (by decide)) hvalue he
  | var ds =>
    simp only [Stmt.all, Node.isReadable, Node.isProper, Node.isSpelled, Bool.and_eq_true,
      Bool.not_eq_true'] at hs
    rw [Stmt.words] at hts
    obtain ⟨t, tail, rfl, ht, htail⟩ := List.map_eq_cons_iff.mp hts
    obtain ⟨us, e, rfl, hus, he⟩ := map_concat htail
    intro stop rest _
    cases ds with
    | nil => cases hs.1.1.1
    | cons d ds =>
      have hread : Gives (readDecls stop (us ++ e :: rest)) (declsUnbound (d :: ds)) (e :: rest) :=
        readDecls_listed he (decls_readBack (d :: ds) hs.2) hus
      rw [List.cons_append, List.append_assoc]
      exact readStmt_var ht hread he
  | cond test yes no =>
    simp only [Stmt.all, Node.isReadable, Node.isProper, Node.isSpelled, Node.isLegible,
      Bool.and_eq_true, Bool.not_eq_true', Bool.or_eq_true] at hs
    rw [Stmt.words] at hts
    obtain ⟨t, tail, rfl, ht, htail⟩ := List.map_eq_cons_iff.mp hts
    obtain ⟨o, tail, rfl, ho, htail⟩ := List.map_eq_cons_iff.mp htail
    obtain ⟨us, tail, rfl, hus, htail⟩ := List.map_eq_append_iff.mp htail
    obtain ⟨c, tail, rfl, hc, htail⟩ := List.map_eq_cons_iff.mp htail
    obtain ⟨vs, last, rfl, hvs, hlast⟩ := List.map_eq_append_iff.mp htail
    have hyes := yes.readsBack hs.1.2 hvs
    have htest := (test.readsBack hs.1.1.2 hs.1.1.1.1.1 hus).whole (Nat.zero_le 1)
    intro stop rest hrest
    have hcond : Gives (readAssign stop (us ++ c :: (vs ++ (last ++ rest)))) test.unbound
        (c :: (vs ++ (last ++ rest))) := htest ⟨c, _, rfl, .inl hc⟩
    rw [List.cons_append, List.cons_append, List.append_assoc, List.cons_append, List.append_assoc]
    by_cases hno : no = .absent
    · subst hno
      obtain rfl : last = [] := by simpa [Stmt.isAbsent] using hlast
      -- without an `else`, none may follow
      have hnext : nextIs "else" rest = false := hrest rfl
      exact readStmt_cond ht ho hcond hc (hyes fun _ => hnext) hnext
    · have hpresent := Stmt.isAbsent_eq_false hno
      rw [hpresent] at hlast
      obtain ⟨e, ws, rfl, he, hws⟩ := List.map_eq_cons_iff.mp hlast
      -- no open `if` in the first branch takes the `else`
      have hclosed : yes.isOpen = false := hs.1.1.1.1.2.resolve_left (by rw [hpresent]; decide)
      have hbranch : Gives (readStmt stop (vs ++ e :: (ws ++ rest))) yes.unbound
          (e :: (ws ++ rest)) :=
        hyes fun hopen => absurd hopen (by rw [hclosed]; decide)
      refine readStmt_condElse ht ho hcond hc hbranch he (no.readsBack hs.2 hws fun hopen => ?_)
      exact hrest (by rw [Stmt.isOpen_cond hpresent]; exact hopen)

theorem stmts_readBack (ss : List Stmt) (hss : stmtsAll Node.isReadable ss = true) :
    ∀ s ∈ ss, ∀ ts, ts.map Token.word = s.words → ReadsStmt ts s := by
  cases ss with
  | nil => exact List.forall_mem_nil _
  | cons s ss =>
    simp only [stmtsAll, Bool.and_eq_true] at hss
    rw [List.forall_mem_cons]
    exact ⟨fun ts hts => s.readsBack hss.1 hts, stmts_readBack ss hss.2⟩

theorem decls_readBack (ds : List Decl) (hds : declsAll Node.isReadable ds = true) :
    ∀ d ∈ ds, ∀ ts, ts.map Token.word = d.words → ReadsDecl ts d := by
  cases ds with
  | nil => exact List.forall_mem_nil _
  | cons d ds =>
    obtain ⟨name, init⟩ := d
    simp only [declsAll, Decl.all, Bool.and_eq_true] at hds
    rw [List.forall_mem_cons]
    refine ⟨fun ts hts => ?_, decls_readBack ds hds.2⟩
    rw [Decl.words] at hts
    obtain ⟨t, tail, rfl, ht, htail⟩ := List.map_eq_cons_iff.mp hts
    refine ⟨t, tail, rfl, ht, fun stop rest hrest => ?_⟩
    by_cases hinit : init = .absent
    · subst hinit
      obtain rfl : tail = [] := by simpa [Expr.isAbsent, Expr.words, joint] using htail
      exact readInit_none hrest.nextIs_eq
    · have hpresent := Expr.isAbsent_eq_false hinit
      have hvalue : tail.map Token.word = .sign "=" :: init.words (powerAssign + 1) := by
        simpa [hpresent, joint] using htail
      obtain ⟨e, us, rfl, he, hus⟩ := List.map_eq_cons_iff.mp hvalue
      exact readInit_some he ((init.readsBack hds.1.2 hpresent hus).whole (Nat.le_refl 1) hrest)

theorem Function.readsBack (f : Function) (hf : f.all Node.isReadable = true) {ts : List Token}
    (hts : ts.map Token.word = f.words) : ReadsFunction ts f := by
  obtain ⟨name, params, names, body⟩ := f
  simp only [Function.all, Node.isReadable, Node.isProper, Node.isSpelled, Bool.and_eq_true,
    Bool.or_eq_true, decide_eq_true_eq] at hf
  cases body with
  | block ss =>
    have hbody := hf.2
    simp only [Stmt.all, Bool.and_eq_true] at hbody
    rw [Function.words, Stmt.isAbsent_of_isBlock rfl, Stmt.words] at hts
    obtain ⟨t, tail, rfl, ht, htail⟩ := List.map_eq_cons_iff.mp hts
    obtain ⟨n, tail, rfl, hn, htail⟩ := List.map_eq_append_iff.mp htail
    obtain ⟨o, tail, rfl, ho, htail⟩ := List.map_eq_cons_iff.mp htail
    obtain ⟨us, tail, rfl, hus, htail⟩ := List.map_eq_append_iff.mp htail
    obtain ⟨c, tail, rfl, hc, htail⟩ := List.map_eq_cons_iff.mp htail
    obtain ⟨b, tail, rfl, hb, htail⟩ := List.map_eq_cons_iff.mp htail
    obtain ⟨vs, e, rfl, hvs, he⟩ := map_concat htail
    refine ⟨t, _, rfl, ht, fun stop rest => ?_⟩
    have hparams : Gives (readParams stop (us ++ c :: (b :: (vs ++ [e]) ++ rest))) params
        (b :: (vs ++ [e]) ++ rest) := readParams_listed hc hf.1.1.1.1.2 hus
    have hblock : Gives (readBlock stop (b :: (vs ++ [e]) ++ rest)) (stmtsUnbound ss) rest :=
      readBlock_words hbody.1 hbody.2 (stmts_readBack ss hbody.2) hb hvs he
    by_cases hname : name = ""
    · subst hname
      obtain rfl : n = [] := by simpa [nameWords, joint] using hn
      rw [List.nil_append, List.cons_append, List.append_assoc]
      exact readFunction_anonymous ho hparams hblock
    · obtain ⟨m, rfl, hm⟩ := map_singleton (by simpa [nameWords, joint, hname] using hn)
      rw [List.cons_append, List.cons_append, List.nil_append, List.cons_append, List.append_assoc]
      exact readFunction_named hm ho hparams hblock
  | _ => cases hf.1.1.1.2

end

end DefaultLowering.Fragment
