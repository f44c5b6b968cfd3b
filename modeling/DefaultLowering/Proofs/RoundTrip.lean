import DefaultLowering.Proofs.Rereading

/-!
# Printing and reading

The printer and the reader are inverse to each other where the reader can tell what was printed.

- `print_parse`: a clean tree is printed, and what is printed is read as the same tree.
- `parse_print`: a fragment that has been accepted is printed, and what is printed is accepted and
  gives the same function, if its tree is legible (no number in front of a property, no bare member
  reference in front of arguments, no conditional that would take an `else` from the one around it)
  and clear (no statement begins with a word that makes it another statement, or lets the one before
  it go on).
- `parse_print_lossy`: the reader is lenient enough to accept fragments that fail in any one of these
  ways, and they do not survive.

Trees are compared before names are resolved (`unbound`): resolving them depends on the scopes that
a fragment is read in.
-/

namespace DefaultLowering.Fragment

open Description (bind_eq_ok)

variable {ss : List Stmt} {source : String} {t : Token}

/-! ## Section 1: A readable body is read back -/

/-- A source with the words of readable statements is read as these. -/
theorem readFragment_of_words (h : (Stmt.block ss).all Node.isReadable = true) {tokens : List Token}
    {stop : Nat} (hlex : lex source = .ok ⟨tokens, stop⟩)
    (hwords : tokens.map Token.word = stmtsWords ss) (params : List String) :
    readFragment source params = .ok (.declaring "" params (.block (stmtsUnbound ss))) := by
  simp only [Stmt.all, Bool.and_eq_true] at h
  have hself := h.1
  simp only [Node.isReadable, Node.isProper, Node.isSpelled, Node.isClear,
    Bool.and_eq_true] at hself
  have hread : Gives (readStmts stop none (tokens ++ [])) (stmtsUnbound ss) [] :=
    readStmts_words (fun _ hnone => by cases hnone) h.2 hself.1.1 hself.2 (stmts_readBack ss h.2)
      hwords (.inl ⟨rfl, rfl⟩)
  rw [List.append_nil] at hread
  obtain ⟨hlength, hread⟩ := hread
  unfold readFragment
  rw [hlex, ok_bind]
  simp only [hread, ok_bind]
  rfl

theorem readFragment_withoutBraces (h : (Stmt.block ss).all Node.isReadable = true)
    (params : List String) :
    readFragment (withoutBraces (Stmt.block ss).render) params =
      .ok (.declaring "" params (.block (stmtsUnbound ss))) := by
  have hss := h
  simp only [Stmt.all, Bool.and_eq_true] at hss
  have hproper : stmtsAll (Node.isProper expressionWords) ss = true :=
    (Part.stmts ss).all_of_all (fun n hn _ => (Bool.and_eq_true_iff.mp (n.of_all rfl rfl hn)).1) hss.2 hss.2
  obtain ⟨tokens, stop, hlex, hwords⟩ := lex_withoutBraces hproper
  exact readFragment_of_words h hlex hwords params

/-! ## Section 2: What is well spelled has a written form -/

section

variable {reserved : List String}

@[simp]
theorem Expr.isAbsent_name (ident : String) (q : Expr) (level : Option Nat) :
    (Expr.name ident q level).isAbsent = false := rfl

/-- All that is there of the part has a written form. -/
def Part.Written : Part → Prop
  | .expr x => x.isAbsent = false → x.complete = true
  | .args xs => (∀ x ∈ xs, x.isAbsent = false) → completeArgs xs = true
  | .stmt s => s.complete = true
  | .stmts ss => completeStmts ss = true
  | .decls ds => completeDecls ds = true
  | .function f => f.complete = true

theorem Part.written_of_spelled (a : Part) (ha : a.all (Node.isSpelled reserved) = true) : a.Written := by
  induction a using Part.induct with
  | name _ x | ret x | moreDecls _ x =>
    -- nothing is asked of what may be absent
    cases x <;> simp_all [Part.Written, Part.all, Expr.all, Stmt.all, declsAll, Decl.all, Expr.isAbsent,
      Expr.complete, Stmt.complete, completeDecls, Decl.complete]
  | invoke ident q =>
    cases q <;> simp_all [Part.Written, Part.all, Expr.all, Node.isSpelled, Expr.isAbsent, Expr.complete]
  | _ =>
    simp_all [Part.Written, Part.all, Expr.all, argsAll, Stmt.all, stmtsAll, declsAll, Function.all,
      Node.isSpelled, Expr.complete, completeArgs, Stmt.complete, completeStmts, completeDecls,
      Function.complete, Expr.isAbsent]

theorem Stmt.complete_of_spelled (s : Stmt) (hs : s.all (Node.isSpelled reserved) = true) :
    s.complete = true :=
  (Part.stmt s).written_of_spelled hs

end

/-! ## Section 3: Clean trees -/

/-- The words that no unqualified name of a clean tree is. -/
def keywords : List String := expressionWords ++ statementWords

/-- A function tree that is spelled like a fragment that keeps to the keywords, and legible. -/
def Function.isClean (f : Function) : Bool :=
  f.params.all isIdentWord && f.body.isBlock && f.body.all (Node.isProper keywords)

theorem Word.Opens.not_statementWord {w : Word} (h : w.Opens keywords) :
    w.text ∉ statementWords := by
  intro hmem
  have hkind : w.kind = .ident := by
    have hlexeme := h.lexeme
    have hone : ∀ text ∈ statementWords, ∀ kind ∈ [TokenKind.member, .number, .string, .operator],
        Word.isLexeme ⟨kind, text⟩ = false := by decide
    obtain ⟨kind, text⟩ := w
    cases kind with
    | ident => rfl
    | _ => exact absurd hlexeme (by rw [hone text hmem _ (by decide)]; decide)
  rcases h.free hkind with hword | hfree
  · have hapart : ∀ text ∈ statementWords, text ∉ expressionWords := by decide
    exact hapart _ hmem hword
  · exact hfree (List.mem_append_right _ hmem)

theorem Opening.not_beginsWith {ws : List Word} (h : Opening keywords ws) {text : String}
    (htext : text ∈ statementWords) : beginsWith text ws = false := by
  obtain ⟨w, tail, rfl, hw⟩ := h
  refine beq_eq_false_iff_ne.mpr fun heq => ?_
  obtain rfl : w.text = text := Option.some.inj heq
  exact hw.not_statementWord htext

/-- No statement of a clean tree begins with `else`. -/
theorem Stmt.not_else {s : Stmt} (hs : s.all (Node.isSpelled keywords) = true) :
    beginsWith "else" s.words = false := by
  cases s with
  | expr x =>
    simp only [Stmt.all, Node.isSpelled, Bool.and_eq_true, Bool.not_eq_true'] at hs
    rw [Stmt.words]
    exact ((x.opening_words hs.2 hs.1 powerAssign).append _).not_beginsWith (by decide)
  | absent | block | ret | var | cond => rw [Stmt.words]; rfl

theorem noStrayElse_of_spelled (hss : stmtsAll (Node.isSpelled keywords) ss = true) :
    noStrayElse ss = true := by
  induction ss with
  | nil => rfl
  | cons s ss ih =>
    simp only [stmtsAll, Bool.and_eq_true] at hss
    cases ss with
    | nil => rfl
    | cons =>
      have hnext := hss.2
      simp only [stmtsAll, Bool.and_eq_true] at hnext
      simp only [noStrayElse, Stmt.not_else hnext.1, Bool.and_false, Bool.not_false, Bool.true_and]
      exact ih hss.2

/-- Below a clean node the statements are clear. -/
theorem Node.isClear_of_spelled (n : Node) (h : n.all (Node.isSpelled keywords) = true) :
    n.isClear = true := by
  cases n with
  | stmt s =>
    cases s with
    | block =>
      simp only [Node.all, Stmt.all, Bool.and_eq_true] at h
      exact noStrayElse_of_spelled h.2
    | expr x =>
      simp only [Node.all, Stmt.all, Node.isSpelled, Bool.and_eq_true, Bool.not_eq_true'] at h
      have hopening := x.opening_words h.2 h.1 powerAssign
      have hmem : ∀ text ∈ ["var", "return", "if"], text ∈ statementWords := by decide
      simp only [Node.isClear, List.all_eq_true, Bool.not_eq_true']
      exact fun text htext => hopening.not_beginsWith (hmem text htext)
    | _ => rfl
  | _ => rfl

/-- With fewer words reserved no less is well spelled. -/
theorem Node.isSpelled_mono {reserved reserved' : List String}
    (hsub : ∀ text ∈ reserved', text ∈ reserved) (n : Node) (h : n.isSpelled reserved = true) :
    n.isSpelled reserved' = true := by
  cases n with
  | expr x =>
    cases x with
    | name ident =>
      simp only [Node.isSpelled, Bool.or_eq_true, Bool.and_eq_true, decide_eq_true_eq] at h ⊢
      exact h.imp_right fun hword => ⟨hword.1, hword.2.imp_right (mt (hsub ident))⟩
    | _ => exact h
  | stmt s => cases s <;> exact h
  | function f =>
    obtain ⟨name, params, names, body⟩ := f
    exact h
  | decl d =>
    obtain ⟨name, init⟩ := d
    exact h

theorem Node.isSpelled_of_proper {reserved : List String} (n : Node)
    (h : n.all (Node.isProper reserved) = true) : n.isSpelled reserved = true :=
  (Bool.and_eq_true_iff.mp (n.of_all rfl rfl h)).1

theorem Node.isReadable_of_clean (n : Node) (h : n.all (Node.isProper keywords) = true) :
    n.isReadable = true := by
  have hself := n.of_all rfl rfl h
  simp only [Node.isProper, Bool.and_eq_true] at hself
  have hspelled := n.isSpelled_mono (fun _ hmem => List.mem_append_left _ hmem) hself.1
  have hclear := n.isClear_of_spelled (n.all_mono Node.isSpelled_of_proper h)
  simp only [Node.isReadable, Node.isProper, Bool.and_eq_true]
  exact ⟨⟨hspelled, hself.2⟩, hclear⟩

/-- A readable body is read back in every chain of scopes. -/
theorem parse_withoutBraces (h : (Stmt.block ss).all Node.isReadable = true) (params : List String)
    (chain : Chain) :
    ∃ g chain', parse (withoutBraces (Stmt.block ss).render) params chain = .ok (g, chain') ∧
      g.unbound = .declaring "" params (.block (stmtsUnbound ss)) := by
  have hread := readFragment_withoutBraces h params
  refine ⟨_, _, by rw [parse_eq, hread, ok_bind]; rfl, ?_⟩
  exact (unbound_bind _ chain).trans (unbound_of_readFragment hread)

/-- Printing a clean tree succeeds, and the printed body without its braces is read as that tree. -/
theorem print_parse {f : Function} (hf : f.isClean = true) (chain : Chain) :
    ∃ text g chain', Node.print (.stmt f.body) = .ok text ∧
      Node.print (.function f) = .ok (functionHead f.name f.params ++ text) ∧
      parse (withoutBraces text) f.params chain = .ok (g, chain') ∧
      g.unbound = .declaring "" f.params f.body.unbound := by
  obtain ⟨name, params, names, body⟩ := f
  simp only [Function.isClean, Bool.and_eq_true] at hf
  obtain ⟨⟨-, hblock⟩, hall⟩ := hf
  cases body with
  | block ss =>
    have hreadable := (Stmt.block ss).all_of_all (fun n h _ => n.isReadable_of_clean h) hall hall
    have hspelled := (Stmt.block ss).all_of_all (fun n h _ => n.isSpelled_of_proper h) hall hall
    have hcomplete := (Stmt.block ss).complete_of_spelled hspelled
    obtain ⟨g, chain', hparse, hg⟩ := parse_withoutBraces hreadable params chain
    refine ⟨(Stmt.block ss).render, g, chain', ?_, ?_, hparse, hg⟩
    · exact if_pos hcomplete
    · rw [← render_function (Stmt.isAbsent_of_isBlock rfl)]
      exact if_pos hcomplete
  | _ => cases hblock

/-- A function whose body needs parentheses, and has two signs side by side that it must not run
    together. -/
def scaled : Function :=
  .mk "scaled" ["x"] ["x"] (.block [.ret (.binary "*"
    (.binary "+" (.name "x" .absent (some 0)) (.literal "1"))
    (.unary "-" (.unary "-" (.literal "2"))))])

theorem print_parse_scaled : scaled.isClean = true ∧
    ∃ text g chain', Node.print (.stmt scaled.body) = .ok text ∧
      Node.print (.function scaled) = .ok (functionHead scaled.name scaled.params ++ text) ∧
      parse (withoutBraces text) scaled.params .empty = .ok (g, chain') ∧
      g.unbound = .declaring "" scaled.params scaled.body.unbound := by
  have hclean : scaled.isClean = true := by decide +kernel
  exact ⟨hclean, print_parse hclean .empty⟩

/-! ## Section 4: Trees that have been read are well spelled -/

/-- The tree of a phrase is well spelled, and nothing that the phrase needs is missing. -/
def Phrase.IsSpelled : Phrase → Prop
  | .stmts ss => stmtsAll (Node.isSpelled expressionWords) ss = true ∧ ss.all (!·.isAbsent) = true
  | .stmt s => s.all (Node.isSpelled expressionWords) = true
  | .decls ds => declsAll (Node.isSpelled expressionWords) ds = true ∧ ds ≠ []
  | .decl d => d.all (Node.isSpelled expressionWords) = true
  | .assign x | .operation _ x | .suffixed x | .primary x =>
    x.all (Node.isSpelled expressionWords) = true ∧ x.isAbsent = false
  | .args xs =>
    argsAll (Node.isSpelled expressionWords) xs = true ∧ xs.all (!·.isAbsent) = true
  | .params names => names.all isIdentWord = true

theorem isIdentWord_of_kind (h : t.word.isLexeme = true) (hkind : t.kind = .ident) :
    isIdentWord t.text = true := by
  unfold Token.word at h
  rw [hkind] at h
  exact h

theorem isMemberWord_of_kind (h : t.word.isLexeme = true) (hkind : t.kind = .member) :
    isMemberWord t.text = true := by
  unfold Token.word at h
  rw [hkind] at h
  exact h

theorem isLiteralWord_of_kind (h : t.word.isLexeme = true)
    (hkind : t.kind = .number ∨ t.kind = .string) : isLiteralWord t.text = true := by
  unfold Token.word at h
  rcases hkind with hkind | hkind <;> rw [hkind] at h <;> simp [isLiteralWord, h]

theorem spelled_wordExpr (h : t.word.isLexeme = true) (hkind : t.kind = .ident)
    (hfunction : t.text ≠ "function") (htypeof : t.text ≠ "typeof") :
    (Phrase.primary (wordExpr t.text)).IsSpelled := by
  have hword := isIdentWord_of_kind h hkind
  unfold wordExpr
  split
  · exact ⟨rfl, rfl⟩
  · rename_i hthis
    split
    · rename_i hvalue
      have hliteral : isLiteralWord t.text = true := by simp [isLiteralWord, hvalue]
      exact ⟨hliteral, rfl⟩
    · rename_i hvalue
      simp only [List.mem_cons, List.not_mem_nil, or_false, not_or] at hvalue
      refine ⟨?_, rfl⟩
      simp [Expr.all, Node.isSpelled, hword, expressionWords, hthis, hvalue, hfunction, htypeof]

theorem mem_of_isUnary (h : t.isUnary = true) : t.text ∈ ["!", "-", "+", "typeof"] := by
  simp only [Token.isUnary, Bool.or_eq_true, Bool.and_eq_true, beq_iff_eq] at h
  rcases h with ⟨-, (h | h) | h⟩ | ⟨-, h⟩ <;> rw [h] <;> decide

theorem spelled_name {name : String} {n : List Token} (h : Naming name n)
    (hlex : ∀ t ∈ n, t.word.isLexeme = true) : name = "" ∨ isIdentWord name = true := by
  rcases h with ⟨rfl, -⟩ | ⟨t, hkind, rfl, rfl⟩
  · exact .inl rfl
  · exact .inr (isIdentWord_of_kind (hlex t (List.mem_singleton_self _)) hkind)

/-- Trees of phrases are well spelled, when the phrases are made of lexemes. -/
theorem Derives.isSpelled {φ : Phrase} {ts : List Token} (h : Derives φ ts)
    (hlex : ∀ t ∈ ts, t.word.isLexeme = true) : φ.IsSpelled := by
  induction h with
  | noStmts | noArgs => exact ⟨rfl, rfl⟩
  | semicolon | bareReturn | noParams => rfl
  | emptyStmt _ _ _ ih => exact ih (List.forall_mem_append.mp hlex).2
  | moreStmts hpresent _ _ ih ih' =>
    obtain ⟨hfirst, hrest⟩ := List.forall_mem_append.mp hlex
    have hs := ih hfirst
    have hss := ih' hrest
    simp_all [Phrase.IsSpelled, stmtsAll, Stmt.isAbsent_eq_false]
  | block _ _ _ ih | var _ _ _ ih | returnValue _ _ _ ih =>
    simp only [List.forall_mem_append, List.forall_mem_cons] at hlex
    have hinner := ih hlex.2.1
    simp_all [Phrase.IsSpelled, Stmt.all, Node.isSpelled]
  | cond _ _ _ _ _ ih ih' =>
    simp only [List.forall_mem_append, List.forall_mem_cons] at hlex
    have htest := ih hlex.2.2.1
    have hyes := ih' hlex.2.2.2.2
    simp_all [Phrase.IsSpelled, Stmt.all, Node.isSpelled]
  | condElse _ _ _ _ _ _ _ ih ih' ih'' =>
    simp only [List.forall_mem_append, List.forall_mem_cons] at hlex
    have htest := ih hlex.2.2.1
    have hyes := ih' hlex.2.2.2.2.1
    have hno := ih'' hlex.2.2.2.2.2.2
    simp_all [Phrase.IsSpelled, Stmt.all, Node.isSpelled]
  | exprStmt _ _ ih =>
    have hx := ih (List.forall_mem_append.mp hlex).1
    simp_all [Phrase.IsSpelled, Stmt.all, Node.isSpelled]
  | lastDecl _ ih =>
    have hd := ih hlex
    simp_all [Phrase.IsSpelled, declsAll]
  | moreDecls _ _ _ ih ih' =>
    simp only [List.forall_mem_append, List.forall_mem_cons] at hlex
    have hd := ih hlex.1
    have hds := ih' hlex.2.2
    simp_all [Phrase.IsSpelled, declsAll]
  | bareDecl hkind =>
    have hname := isIdentWord_of_kind (hlex _ (List.mem_cons_self ..)) hkind
    simpa [Phrase.IsSpelled, Decl.all, Node.isSpelled, Expr.all] using hname
  | initDecl hkind _ _ ih =>
    simp only [List.forall_mem_cons] at hlex
    have hname := isIdentWord_of_kind hlex.1 hkind
    have hx := ih hlex.2.2
    simp_all [Phrase.IsSpelled, Decl.all, Node.isSpelled]
  | unassigned _ ih | tighter _ _ _ ih | plain _ ih | unsuffixed _ ih => exact ih hlex
  | assignment _ _ _ ih ih' | binary _ hop _ _ ih ih' =>
    simp only [List.forall_mem_append, List.forall_mem_cons] at hlex
    have hx := ih hlex.1
    have hy := ih' hlex.2.2
    refine ⟨?_, rfl⟩
    simp_all [Phrase.IsSpelled, Expr.all, Node.isSpelled]
  | unary hop _ ih =>
    have hx := ih (List.forall_mem_cons.mp hlex).2
    have hmem := mem_of_isUnary hop
    refine ⟨?_, rfl⟩
    simp_all [Phrase.IsSpelled, Expr.all, Node.isSpelled]
  | property _ _ hkind ih =>
    simp only [List.forall_mem_append, List.forall_mem_cons] at hlex
    have hx := ih hlex.1
    have hname : isMemberWord _ = true ∨ isIdentWord _ = true :=
      hkind.symm.imp (isMemberWord_of_kind hlex.2.2.1) (isIdentWord_of_kind hlex.2.2.1)
    refine ⟨?_, rfl⟩
    simp_all [Phrase.IsSpelled, Expr.all, Node.isSpelled]
  | call _ _ _ _ ih ih' =>
    simp only [List.forall_mem_append, List.forall_mem_cons] at hlex
    have hx := ih hlex.1
    have hxs := ih' hlex.2.2.1
    refine ⟨?_, rfl⟩
    simp_all [Phrase.IsSpelled, Expr.all, Node.isSpelled]
  | lastArg _ ih =>
    have hx := ih hlex
    simp_all [Phrase.IsSpelled, argsAll]
  | moreArgs _ _ _ _ ih ih' =>
    simp only [List.forall_mem_append, List.forall_mem_cons] at hlex
    have hx := ih hlex.1
    have hxs := ih' hlex.2.2
    simp_all [Phrase.IsSpelled, argsAll]
  | literal hkind =>
    exact ⟨isLiteralWord_of_kind (hlex _ (List.mem_cons_self ..)) hkind, rfl⟩
  | member hkind =>
    have hname := isMemberWord_of_kind (hlex _ (List.mem_cons_self ..)) hkind
    exact ⟨by simp [Expr.all, Node.isSpelled, hname], rfl⟩
  | word hkind hfunction htypeof =>
    exact spelled_wordExpr (hlex _ (List.mem_cons_self ..)) hkind hfunction htypeof
  | parens _ _ _ ih =>
    simp only [List.forall_mem_append, List.forall_mem_cons] at hlex
    exact ih hlex.2.1
  | func _ hname _ _ _ _ _ _ ih ih' =>
    simp only [List.forall_mem_append, List.forall_mem_cons] at hlex
    have hspelled := spelled_name hname hlex.2.1
    have hps := ih hlex.2.2.2.1
    have hss := ih' hlex.2.2.2.2.2.2.1
    refine ⟨?_, rfl⟩
    simp_all [Phrase.IsSpelled, Expr.all, Function.declaring, Function.all, Stmt.all, Stmt.isBlock,
      Node.isSpelled]
  | lastParam hkind | lastParamComma hkind =>
    have hname := isIdentWord_of_kind (hlex _ (List.mem_cons_self ..)) hkind
    simpa [Phrase.IsSpelled] using hname
  | moreParams hkind _ _ _ ih =>
    simp only [List.forall_mem_cons] at hlex
    have hname := isIdentWord_of_kind hlex.1 hkind
    have hps := ih hlex.2.2
    simp_all [Phrase.IsSpelled]

/-! ### Spelling does not depend on how names are resolved -/

@[simp]
theorem Expr.isAbsent_unbound (x : Expr) : x.unbound.isAbsent = x.isAbsent := by
  cases x <;> rfl

@[simp]
theorem Stmt.isAbsent_unbound (s : Stmt) : s.unbound.isAbsent = s.isAbsent := by
  cases s <;> rfl

@[simp]
theorem Stmt.isBlock_unbound (s : Stmt) : s.unbound.isBlock = s.isBlock := by
  cases s <;> rfl

theorem argsUnbound_eq_map (xs : List Expr) : argsUnbound xs = xs.map Expr.unbound := by
  induction xs with
  | nil => rfl
  | cons x xs ih => rw [argsUnbound, ih, List.map_cons]

theorem stmtsUnbound_eq_map (ss : List Stmt) : stmtsUnbound ss = ss.map Stmt.unbound := by
  induction ss with
  | nil => rfl
  | cons s ss ih => rw [stmtsUnbound, ih, List.map_cons]

section

variable {reserved : List String}

theorem Part.spelled_unbound (a : Part) :
    a.unbound.all (Node.isSpelled reserved) = a.all (Node.isSpelled reserved) := by
  induction a using Part.induct with
  | var ds =>
    have hempty : (declsUnbound ds).isEmpty = ds.isEmpty := by cases ds <;> rfl
    simp_all [Part.all, Part.unbound, Stmt.unbound, Stmt.all, Node.isSpelled]
  | _ =>
    simp_all [Part.all, Part.unbound, Expr.unbound, argsUnbound_eq_map, Stmt.unbound,
      stmtsUnbound_eq_map, declsUnbound, Decl.unbound, Function.unbound, Function.declaring, Expr.all,
      argsAll, Stmt.all, stmtsAll, declsAll, Decl.all, Function.all, Node.isSpelled, List.all_map,
      Function.comp_def]

theorem Stmt.spelled_unbound (s : Stmt) :
    s.unbound.all (Node.isSpelled reserved) = s.all (Node.isSpelled reserved) :=
  (Part.stmt s).spelled_unbound

end

/-! ## Section 5: Accepted fragments -/

theorem lexemes_of_lex {tokens : List Token} {stop : Nat} (h : lex source = .ok ⟨tokens, stop⟩) :
    ∀ t ∈ tokens, t.word.isLexeme = true :=
  lexFrom_lexemes (lex_eq_ok.mp h).1

/-- What is read is a well-spelled block. -/
theorem spelled_of_readFragment {params : List String} {f : Function}
    (h : readFragment source params = .ok f) : ∃ ss, f = .declaring "" params (.block ss) ∧
      (Stmt.block ss).all (Node.isSpelled expressionWords) = true := by
  obtain ⟨tokens, stop, ss, hlex, hderives, rfl⟩ := readFragment_derives h
  have hspelled : stmtsAll (Node.isSpelled expressionWords) ss = true ∧
      ss.all (!·.isAbsent) = true := hderives.isSpelled (lexemes_of_lex hlex)
  refine ⟨ss, rfl, ?_⟩
  simp only [Stmt.all, Node.isSpelled, Bool.and_eq_true]
  exact hspelled.symm

/-- An accepted fragment whose tree is legible and clear survives printing: the printed body without
    its braces is accepted again, and gives the same function in the same scopes. -/
theorem parse_print {source : String} {params : List String} {chain chain' : Chain} {f : Function}
    (h : parse source params chain = .ok (f, chain'))
    (hlegible : f.body.all (fun n => n.isLegible && n.isClear) = true) :
    ∃ text, Node.print (.stmt f.body) = .ok text ∧
      parse (withoutBraces text) params chain = .ok (f, chain') := by
  obtain ⟨g, hg, hbind, hunbound⟩ := readFragment_of_parse h
  obtain ⟨ss, rfl, hss⟩ := spelled_of_readFragment hg
  obtain ⟨name, params', names, body⟩ := f
  injection hunbound with hname hparams hnames hbody
  have hblock : body.isBlock = true := by rw [← Stmt.isBlock_unbound, hbody]; rfl
  have hspelled : body.all (Node.isSpelled expressionWords) = true := by
    rw [← Stmt.spelled_unbound, hbody, hss]
  have hreadable : body.all Node.isReadable = true := by
    refine body.all_of_all (fun n hspelled hlegible => ?_) hspelled hlegible
    have hself := n.of_all rfl rfl hspelled
    have hclear := n.of_all rfl rfl hlegible
    simp_all [Node.isReadable, Node.isProper]
  cases body with
  | block ss' =>
    refine ⟨(Stmt.block ss').render, if_pos ((Stmt.block ss').complete_of_spelled hspelled), ?_⟩
    -- the text is read as the tree before its names are resolved, which gives the same again
    have hread := readFragment_withoutBraces hreadable params
    have hbody' : Stmt.block (stmtsUnbound ss') = .block ss := hbody
    rw [hbody'] at hread
    rw [parse_eq, hread, ok_bind, hbind]
    rfl
  | _ => cases hblock

theorem parse_print_example :
    let source :=
      "if (a) \x7b b = (function (x) \x7b return -(-x) \x7d)(1).y \x7d else (a = b) = c;"
    ∃ f chain', parse source ["a"] .empty = .ok (f, chain') ∧
      f.body.all (fun n => n.isLegible && n.isClear) = true ∧
      ∃ text, Node.print (.stmt f.body) = .ok text ∧
        parse (withoutBraces text) ["a"] .empty = .ok (f, chain') := by
  intro source
  have hok : ((parse source ["a"] .empty).toOption.any fun r =>
      r.1.body.all fun n => n.isLegible && n.isClear) = true := by decide +kernel
  cases hparse : parse source ["a"] .empty with
  | error => rw [hparse] at hok; cases hok
  | ok found =>
    rw [hparse] at hok
    exact ⟨found.1, found.2, rfl, hok, parse_print hparse hok⟩

/-- The tree of a fragment, and the tree that its printed body is read as. -/
def rereads (source : String) : Option (Function × Function) := do
  let (f, _) ← (parse source [] .empty).toOption
  let text ← (Node.print (.stmt f.body)).toOption
  let (g, _) ← (parse (withoutBraces text) [] .empty).toOption
  return (f.unbound, g.unbound)

/-- The fragment is accepted, and printed, but its printed body is accepted as another tree. -/
def Lossy (source : String) : Prop :=
  ∃ f chain text g chain', parse source [] .empty = .ok (f, chain) ∧
    Node.print (.stmt f.body) = .ok text ∧
    parse (withoutBraces text) [] .empty = .ok (g, chain') ∧ g.unbound ≠ f.unbound

/-- Trees are told apart by a check that one of them passes and the other does not. -/
theorem lossy_of_rereads (check : Node → Bool)
    (h : ((rereads source).any fun r => !r.1.all check && r.2.all check) = true) :
    Lossy source := by
  unfold rereads at h
  cases hparse : parse source [] .empty with
  | error => rw [hparse] at h; cases h
  | ok found =>
    obtain ⟨f, chain⟩ := found
    rw [hparse] at h
    cases hprint : Node.print (.stmt f.body) with
    | error => simp [Except.toOption, hprint] at h
    | ok text =>
      cases hagain : parse (withoutBraces text) [] .empty with
      | error => simp [Except.toOption, hprint, hagain] at h
      | ok found' =>
        obtain ⟨g, chain'⟩ := found'
        have hcheck : f.unbound.all check = false ∧ g.unbound.all check = true := by
          simpa [Except.toOption, hprint, hagain] using h
        refine ⟨f, chain, text, g, chain', hparse, hprint, hagain, fun heq => ?_⟩
        rw [heq, hcheck.1] at hcheck
        cases hcheck.2

/-- Nothing that legible and clear trees leave out could be allowed: a number in front of a property,
    a member reference without signature in front of its arguments, an `else` behind an empty second
    branch, a keyword as a name, and an `else` behind an empty statement are accepted, but not
    printed so that they are read again as they were. -/
theorem parse_print_lossy : Lossy "(1).a" ∧ Lossy "@T::m (x)" ∧
    Lossy "if (a) if (b) c; else ; else d" ∧ Lossy "(return)" ∧ Lossy "if (a) b; ; else c" :=
  ⟨lossy_of_rereads Node.isLegible (by decide +kernel),
    lossy_of_rereads Node.isLegible (by decide +kernel),
    lossy_of_rereads Node.isLegible (by decide +kernel),
    lossy_of_rereads Node.isClear (by decide +kernel),
    lossy_of_rereads Node.isClear (by decide +kernel)⟩

end DefaultLowering.Fragment
