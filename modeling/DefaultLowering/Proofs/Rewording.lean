import DefaultLowering.Proofs.RoundTrip

/-!
# Renamed trees can be written

A tree whose nodes are properly spelled and legible is read again as it was written.  Lowering renames
member references, moves qualifiers in front of arguments, and lets the receiver be read from a
parameter.  None of this spoils a node: no word comes in that is not one, nothing that is needed goes
missing, and no word gets a neighbour into which it runs.

- `Rewords`: renames that give member references to member references;
- `Expr.proper_renamed`, `Stmt.proper_renamed`: what they make of a proper tree is proper;
- `Stmt.proper_readingReceiver`: so is the tree that reads the receiver from its parameter;
- `parse_of_proper`: a proper body can be printed, and is read again.
-/

namespace DefaultLowering.Fragment

variable {ident : String} {q x : Expr} {level : Option Nat} {args : List Expr}

/-! ## Section 1: Member references as words -/

theorem signatureEnd_append {params : List Char} (h : ')' ∉ params) :
    signatureEnd (params ++ [')']) = some (params.length + 1) := by
  induction params with
  | nil => rfl
  | cons c params ih =>
    rw [List.mem_cons, not_or] at h
    rw [List.cons_append, signatureEnd, if_neg (Ne.symm h.1), ih h.2]
    rfl

/-- A signature ends with the first bracket that closes. -/
theorem not_mem_of_signatureEnd {params : List Char}
    (h : signatureEnd (params ++ [')']) = some (params.length + 1)) : ')' ∉ params := by
  induction params with
  | nil => exact List.not_mem_nil
  | cons c params ih =>
    rw [List.cons_append, signatureEnd] at h
    split at h
    · rw [List.length_cons, Option.some.injEq] at h
      omega
    · rename_i hc
      obtain ⟨n, hn, hlength⟩ := Option.map_eq_some_iff.mp h
      rw [List.length_cons] at hlength
      obtain rfl : n = params.length + 1 := by omega
      rw [List.mem_cons, not_or]
      exact ⟨Ne.symm hc, ih hn⟩

/-- The text of a reference to a method. -/
def signatureText (type name params : List Char) : List Char :=
  '@' :: (type ++ ':' :: ':' :: (name ++ '(' :: (params ++ [')'])))

section

variable {ident : String} {type name params : List Char}

theorem isMemberWord_of_text (htext : ident.toList = signatureText type name params)
    (htype : type ≠ []) (htypes : type.all isTypePart = true) (hname : name ≠ [])
    (hnames : name.all continuesIdent = true) (hparams : ')' ∉ params) :
    isMemberWord ident = true := by
  have hparts : MemberParts (type ++ ':' :: ':' :: (name ++ '(' :: (params ++ [')']))) type name
      ('(' :: (params ++ [')'])) := by
    refine ⟨rfl, htype, htypes, hname, hnames, ?_⟩
    intro c hc
    cases hc
    rfl
  have hextent := hparts.memberExtent_signature (signatureEnd_append hparams)
  refine Word.isLexeme_iff.mpr ⟨'@', _, htext, ?_⟩
  rw [List.append_nil]
  change memberExtent _ = _
  rw [hextent]
  simp only [List.length_append, List.length_cons, List.length_nil, Except.ok.injEq,
    Extent.mk.injEq, true_and]
  omega

/-- A reference to a method has a type, and nothing closes its brackets before their end. -/
theorem text_of_isMemberWord (htext : ident.toList = signatureText type name params)
    (htype : ':' ∉ type) (hnames : name.all continuesIdent = true) (h : isMemberWord ident = true) :
    type ≠ [] ∧ ')' ∉ params := by
  obtain ⟨c, cs, hcs, hextent⟩ := Word.isLexeme_iff.mp h
  rw [show (⟨.member, ident⟩ : Word).text = ident from rfl, htext, signatureText,
    List.cons.injEq] at hcs
  obtain ⟨rfl, rfl⟩ := hcs
  rw [List.append_nil] at hextent
  have hmember : memberExtent (type ++ ':' :: ':' :: (name ++ '(' :: (params ++ [')']))) = _ :=
    hextent
  obtain ⟨type', name', rest, hparts, hcase⟩ := memberExtent_ok hmember
  -- the parts that the lexer finds are those of the text
  have hlength : type.length = type'.length := by
    have hindex := hparts.separatorIndex_eq
    rw [separatorIndex_append htype, Option.some.injEq] at hindex
    exact hindex
  obtain ⟨rfl, htail⟩ := List.append_inj hparts.text hlength
  rw [List.cons.injEq, List.cons.injEq] at htail
  have hbracket : ∀ c ∈ ('(' :: (params ++ [')'])).head?, continuesIdent c = false := by
    intro c hc
    cases hc
    rfl
  obtain rfl : name = name' := by
    rw [← takeWhile_append_rest hnames hbracket, htail.2.2,
      takeWhile_append_rest hparts.name_all hparts.name_end]
  obtain rfl := List.append_cancel_left htail.2.2
  refine ⟨hparts.type_ne, ?_⟩
  rcases hcase with ⟨hhead, -⟩ | ⟨signature, n, hsignature, hend, hlength⟩
  · exact absurd rfl hhead
  · rw [List.cons.injEq] at hsignature
    rw [← hsignature.2] at hend
    simp only [List.length_append, List.length_cons, List.length_nil, Extent.mk.injEq,
      true_and] at hlength
    obtain rfl : n = params.length + 1 := by omega
    exact not_mem_of_signatureEnd hend

end

/-- An identifier of the script is no member. -/
theorem isMemberIdent_of_isIdentWord (h : isIdentWord ident = true) :
    isMemberIdent ident = false := by
  obtain ⟨c, cs, htext, hextent⟩ := Word.isLexeme_iff.mp h
  have htext' : ident.toList = c :: cs := htext
  rw [isMemberIdent, htext', List.head?_cons, beq_eq_false_iff_ne]
  intro hc
  cases hc
  -- behind `@` the lexer finds a member reference or nothing
  have hmember : memberExtent (cs ++ []) = .ok ⟨some .ident, cs.length⟩ := hextent
  obtain ⟨_, _, _, -, ⟨-, heq⟩ | ⟨_, _, -, -, heq⟩⟩ := memberExtent_ok hmember <;> cases heq

/-! ## Section 2: Proper trees -/

section

variable {reserved : List String}

theorem Expr.proper_name :
    (Expr.name ident q level).all (Node.isProper reserved) = true ↔
      Node.isSpelled reserved (.expr (.name ident q level)) = true ∧ q.isNumber = false ∧
        q.all (Node.isProper reserved) = true := by
  simp [Expr.all, Node.isProper, Node.isLegible, and_assoc]

theorem Expr.proper_call {callee : Expr} :
    (Expr.call callee args).all (Node.isProper reserved) = true ↔
      (callee.isAbsent = false ∧ callee.isBareMember = false ∧
        callee.all (Node.isProper reserved) = true) ∧
      args.all (!·.isAbsent) = true ∧ argsAll (Node.isProper reserved) args = true := by
  simp only [Expr.all, Node.isProper, Node.isSpelled, Node.isLegible, Bool.and_eq_true,
    Bool.not_eq_true']
  tauto

/-- Whether a name is well spelled depends on its qualifier only as far as there is one. -/
theorem Node.isSpelled_name_congr {q' : Expr} {level' : Option Nat} (h : q'.isAbsent = q.isAbsent) :
    Node.isSpelled reserved (.expr (.name ident q' level')) =
      Node.isSpelled reserved (.expr (.name ident q level)) := by
  simp only [Node.isSpelled, h]

end

/-! ## Section 3: Renamed trees -/

/-- Members are renamed, and a member reference becomes a member reference with a signature. -/
def Rewords (renames : Renames) : Prop :=
  ∀ old new, renames.lookup old = some new → isMemberIdent old = true ∧
    (isMemberWord old = true → isMemberWord new = true ∧ isMethodIdent new = true)

section

variable {renames : Renames} {reserved : List String} {own : Nat}

theorem Rewords.word (h : Rewords renames) {old new : String} (hnew : renames.lookup old = some new)
    (hname : Node.isSpelled reserved (.expr (.name old q level)) = true) :
    isMemberWord new = true ∧ isMethodIdent new = true := by
  obtain ⟨hmember, hword⟩ := h old new hnew
  simp only [Node.isSpelled, Bool.or_eq_true, Bool.and_eq_true] at hname
  rcases hname with hold | ⟨hident, -⟩
  · exact hword hold
  · rw [isMemberIdent_of_isIdentWord hident] at hmember
    cases hmember

/-- Nothing is renamed away. -/
@[simp]
theorem Expr.isAbsent_renamed (x : Expr) : (x.renamed renames own).isAbsent = x.isAbsent := by
  cases x with
  | name =>
    simp only [Expr.renamed]
    split <;> rfl
  | call callee =>
    rcases callee.name_or_ne with ⟨ident, q, level, rfl⟩ | hcallee
    · simp only [Expr.renamed]
      split <;> rfl
    · rw [Expr.renamed_call hcallee]
      rfl
  | _ => rfl

@[simp]
theorem Expr.isNumber_renamed (x : Expr) : (x.renamed renames own).isNumber = x.isNumber := by
  cases x with
  | name =>
    simp only [Expr.renamed]
    split <;> rfl
  | call callee =>
    rcases callee.name_or_ne with ⟨ident, q, level, rfl⟩ | hcallee
    · simp only [Expr.renamed]
      split <;> rfl
    · rw [Expr.renamed_call hcallee]
      rfl
  | _ => rfl

@[simp]
theorem Expr.isBareMember_name :
    (Expr.name ident q level).isBareMember = (isMemberIdent ident && !isMethodIdent ident) := rfl

theorem Expr.isBareMember_of_ne (h : ∀ ident q level, x ≠ .name ident q level) :
    x.isBareMember = false := by
  cases x with
  | name ident q level => exact absurd rfl (h ident q level)
  | _ => rfl

@[simp]
theorem all_present_argsRenamed (xs : List Expr) :
    (argsRenamed renames own xs).all (!·.isAbsent) = xs.all (!·.isAbsent) := by
  induction xs with
  | nil => rfl
  | cons x xs ih => rw [argsRenamed, List.all_cons, List.all_cons, x.isAbsent_renamed, ih]

@[simp]
theorem Stmt.isAbsent_renamed (s : Stmt) : (s.renamed renames own).isAbsent = s.isAbsent := by
  cases s <;> rfl

@[simp]
theorem Stmt.isBlock_renamed (s : Stmt) : (s.renamed renames own).isBlock = s.isBlock := by
  cases s <;> rfl

@[simp]
theorem all_present_stmtsRenamed (ss : List Stmt) :
    (stmtsRenamed renames own ss).all (!·.isAbsent) = ss.all (!·.isAbsent) := by
  induction ss with
  | nil => rfl
  | cons s ss ih => rw [stmtsRenamed, List.all_cons, List.all_cons, s.isAbsent_renamed, ih]

@[simp]
theorem isEmpty_declsRenamed (ds : List Decl) :
    (declsRenamed renames own ds).isEmpty = ds.isEmpty := by
  cases ds <;> rfl

@[simp]
theorem Stmt.isOpen_renamed (s : Stmt) : (s.renamed renames own).isOpen = s.isOpen := by
  cases s with
  | cond test yes no =>
    cases no with
    | cond test' yes' no' =>
      exact Stmt.isOpen_renamed (.cond test' yes' no')
    | _ => rfl
  | _ => rfl

/-- The qualifier of a renamed invocation is there to become its first argument. -/
theorem Expr.isAbsent_of_rootLevel (h : (q.rootLevel renames own).isSome = true) :
    q.isAbsent = false := by
  cases q with
  | absent => cases h
  | _ => rfl

/-- A name that a rename gives is proper without a qualifier, and can be invoked. -/
theorem Expr.proper_newName {new : String} (hword : isMemberWord new = true)
    (level : Option Nat) : (Expr.name new .absent level).all (Node.isProper reserved) = true := by
  rw [Expr.proper_name]
  refine ⟨?_, rfl, rfl⟩
  simp only [Node.isSpelled, hword, Bool.true_or]

/-- An invocation whose qualifier and arguments are proper when they have been renamed. -/
theorem Expr.proper_renamed_invoked (hwords : Rewords renames)
    (hx : (Expr.call (.name ident q level) args).all (Node.isProper reserved) = true)
    (hsettled : Settled renames [(ident, q)])
    (hq : (q.renamed renames own).all (Node.isProper reserved) = true)
    (hargs : argsAll (Node.isProper reserved) (argsRenamed renames own args) = true) :
    ((Expr.call (.name ident q level) args).renamed renames own).all (Node.isProper reserved) =
      true := by
  obtain ⟨⟨-, hbare, hcallee⟩, hpresent, -⟩ := Expr.proper_call.mp hx
  obtain ⟨hspelled, hnumber, -⟩ := Expr.proper_name.mp hcallee
  simp only [Expr.renamed]
  cases hnew : renames.lookup ident with
  | some =>
    -- the qualifier goes in front of the arguments, and the callee has a signature
    obtain ⟨hword, hsignature⟩ := hwords.word hnew hspelled
    have hroot : (q.rootLevel renames 0).isSome = true := by
      apply hsettled (ident, q) (List.mem_singleton_self _)
      rw [hnew]
      rfl
    refine Expr.proper_call.mpr ⟨⟨rfl, ?_, Expr.proper_newName hword _⟩, ?_, ?_⟩
    · simp only [Expr.isBareMember, hsignature, Bool.not_true, Bool.and_false]
    · rw [List.all_cons, q.isAbsent_renamed, Expr.isAbsent_of_rootLevel hroot,
        all_present_argsRenamed, hpresent]
      rfl
    · rw [argsAll, hq, hargs]
      rfl
  | none =>
    refine Expr.proper_call.mpr ⟨⟨rfl, hbare, Expr.proper_name.mpr ⟨?_, ?_, hq⟩⟩, ?_, hargs⟩
    · rw [Node.isSpelled_name_congr q.isAbsent_renamed]
      exact hspelled
    · rw [q.isNumber_renamed]
      exact hnumber
    · rw [all_present_argsRenamed]
      exact hpresent

/-- The call of anything else. -/
theorem Expr.proper_renamed_called {callee : Expr}
    (hne : ∀ ident q level, callee ≠ .name ident q level)
    (hx : (Expr.call callee args).all (Node.isProper reserved) = true)
    (hcallee : (callee.renamed renames own).all (Node.isProper reserved) = true)
    (hargs : argsAll (Node.isProper reserved) (argsRenamed renames own args) = true) :
    ((Expr.call callee args).renamed renames own).all (Node.isProper reserved) = true := by
  obtain ⟨⟨hthere, -, -⟩, hpresent, -⟩ := Expr.proper_call.mp hx
  rw [Expr.renamed_call hne, Expr.proper_call, callee.isAbsent_renamed, all_present_argsRenamed]
  exact ⟨⟨hthere, Expr.isBareMember_of_ne (Expr.renamed_ne_name hne), hcallee⟩, hpresent, hargs⟩

theorem Part.proper_renamed (hwords : Rewords renames) (own : Nat) (a : Part)
    (hsettled : Settled renames a.invoked) (ha : a.all (Node.isProper reserved) = true) :
    (a.renamed renames own).all (Node.isProper reserved) = true := by
  induction a using Part.induct generalizing own with
  | name ident q level ih =>
    obtain ⟨hspelled, hnumber, hq⟩ := Expr.proper_name.mp ha
    simp only [Part.renamed, Expr.renamed]
    cases hnew : renames.lookup ident with
    | some => exact Expr.proper_newName (hwords.word hnew hspelled).1 none
    | none =>
      refine Expr.proper_name.mpr ⟨?_, q.isNumber_renamed.trans hnumber, ih own hsettled hq⟩
      rw [Node.isSpelled_name_congr q.isAbsent_renamed]
      exact hspelled
  | invoke ident q level xs ihq ihxs =>
    obtain ⟨⟨hinq, hinxs⟩, hself⟩ :
        (Settled renames q.invoked ∧ Settled renames (invokedInArgs xs)) ∧
          Settled renames [(ident, q)] := by
      rwa [← settled_append, ← settled_append]
    obtain ⟨⟨-, -, hcallee⟩, -, hxs⟩ := Expr.proper_call.mp ha
    exact Expr.proper_renamed_invoked hwords ha hself
      (ihq own hinq (Expr.proper_name.mp hcallee).2.2) (ihxs own hinxs hxs)
  | call x xs hx ihx ihxs =>
    rw [Part.invoked, Expr.invoked_call hx, settled_append] at hsettled
    obtain ⟨⟨-, -, hcallee⟩, -, hxs⟩ := Expr.proper_call.mp ha
    exact Expr.proper_renamed_called hx ha (ihx own hsettled.1 hcallee) (ihxs own hsettled.2 hxs)
  | _ =>
    simp_all [Part.all, Part.renamed, Part.invoked, Expr.invoked, invokedInArgs, Stmt.invoked,
      invokedInStmts, invokedInDecls, Decl.invoked, Function.invoked, settled_append, Expr.renamed,
      argsRenamed, Stmt.renamed, stmtsRenamed, declsRenamed, Decl.renamed, Function.renamed, Expr.all,
      argsAll, Stmt.all, stmtsAll, declsAll, Decl.all, Function.all, Node.isProper, Node.isSpelled,
      Node.isLegible]

end

/-! ## Section 4: Trees that read the receiver -/

section

variable {reserved : List String}

@[simp]
theorem Expr.isAbsent_readingReceiver (x : Expr) : x.readingReceiver.isAbsent = x.isAbsent := by
  cases x <;> rfl

@[simp]
theorem Expr.isNumber_readingReceiver (x : Expr) : x.readingReceiver.isNumber = x.isNumber := by
  cases x <;> rfl

@[simp]
theorem Expr.isBareMember_readingReceiver (x : Expr) :
    x.readingReceiver.isBareMember = x.isBareMember := by
  cases x <;> rfl

@[simp]
theorem all_present_argsReadingReceiver (xs : List Expr) :
    (argsReadingReceiver xs).all (!·.isAbsent) = xs.all (!·.isAbsent) := by
  induction xs with
  | nil => rfl
  | cons x xs ih =>
    rw [argsReadingReceiver, List.all_cons, List.all_cons, x.isAbsent_readingReceiver, ih]

@[simp]
theorem Stmt.isAbsent_readingReceiver (s : Stmt) : s.readingReceiver.isAbsent = s.isAbsent := by
  cases s <;> rfl

@[simp]
theorem Stmt.isBlock_readingReceiver (s : Stmt) : s.readingReceiver.isBlock = s.isBlock := by
  cases s <;> rfl

@[simp]
theorem all_present_stmtsReadingReceiver (ss : List Stmt) :
    (stmtsReadingReceiver ss).all (!·.isAbsent) = ss.all (!·.isAbsent) := by
  induction ss with
  | nil => rfl
  | cons s ss ih =>
    rw [stmtsReadingReceiver, List.all_cons, List.all_cons, s.isAbsent_readingReceiver, ih]

@[simp]
theorem Stmt.isOpen_readingReceiver (s : Stmt) : s.readingReceiver.isOpen = s.isOpen := by
  cases s with
  | cond test yes no =>
    cases no with
    | cond test' yes' no' => exact Stmt.isOpen_readingReceiver (.cond test' yes' no')
    | _ => rfl
  | _ => rfl

/-- The receiver parameter can be read where the words of statements and expressions are reserved. -/
theorem proper_receiverParam (hreserved : receiverParam ∉ reserved) :
    (Expr.name receiverParam .absent (some 0)).all (Node.isProper reserved) = true := by
  have hword : isIdentWord receiverParam = true := by decide
  rw [Expr.proper_name]
  refine ⟨?_, rfl, rfl⟩
  simp [Node.isSpelled, hword, hreserved]

theorem Part.proper_readingReceiver (hreserved : receiverParam ∉ reserved) (a : Part)
    (ha : a.all (Node.isProper reserved) = true) :
    a.readingReceiver.all (Node.isProper reserved) = true := by
  induction a using Part.induct with
  | this => exact proper_receiverParam hreserved
  | _ =>
    simp_all [Part.all, Part.readingReceiver, Expr.readingReceiver, argsReadingReceiver,
      Stmt.readingReceiver, stmtsReadingReceiver, Decl.readingReceiver, Expr.all, argsAll, Stmt.all,
      stmtsAll, declsAll, Decl.all, Node.isProper, Node.isSpelled, Node.isLegible]

end

/-! ## Section 5: Proper bodies are read again -/

/-- No word that begins a statement is used as a name of its own. -/
def Node.sparesKeywords : Node → Bool
  | .expr (.name ident .absent _) => ident ∉ statementWords
  | _ => true

/-- Nothing in the node is read differently when it has been written. -/
def Node.isTidy (n : Node) : Bool := n.isLegible && n.sparesKeywords

/-- A tidy node that is well spelled is proper with all keywords reserved. -/
theorem Node.isProper_of_tidy (n : Node) (hspelled : n.isSpelled expressionWords = true)
    (htidy : n.isTidy = true) : n.isProper keywords = true := by
  obtain ⟨hlegible, hspares⟩ := Bool.and_eq_true_iff.mp htidy
  refine Bool.and_eq_true_iff.mpr ⟨?_, hlegible⟩
  cases n with
  | expr x =>
    cases x with
    | name ident q =>
      cases q with
      | absent =>
        simp only [Node.sparesKeywords, decide_eq_true_eq] at hspares
        simp only [Node.isSpelled, keywords, Expr.isAbsent, Bool.not_true, Bool.false_or,
          Bool.or_eq_true, Bool.and_eq_true, decide_eq_true_eq, List.mem_append, not_or]
          at hspelled ⊢
        exact hspelled.imp_right fun h => ⟨h.1, h.2, hspares⟩
      | _ => exact hspelled
    | _ => exact hspelled
  | stmt s => cases s <;> exact hspelled
  | function f =>
    obtain ⟨name, params, names, body⟩ := f
    exact hspelled
  | decl d =>
    obtain ⟨name, init⟩ := d
    exact hspelled

/-- An accepted fragment has no name, and its body is a proper block if it is tidy. -/
theorem proper_of_parse {source : String} {params : List String} {chain chain' : Chain}
    {f : Function} (h : parse source params chain = .ok (f, chain'))
    (htidy : f.body.all Node.isTidy = true) :
    f.name = "" ∧ f.body.isBlock = true ∧ f.body.all (Node.isProper keywords) = true := by
  obtain ⟨g, hg, -, hunbound⟩ := readFragment_of_parse h
  obtain ⟨ss, rfl, hss⟩ := spelled_of_readFragment hg
  obtain ⟨name, params', names, body⟩ := f
  injection hunbound with hname hparams hnames hbody
  refine ⟨hname, ?_, ?_⟩
  · change body.isBlock = true
    rw [← Stmt.isBlock_unbound, hbody]
    rfl
  · have hspelled : body.all (Node.isSpelled expressionWords) = true := by
      rw [← Stmt.spelled_unbound, hbody, hss]
    refine body.all_of_all (fun n hspelled htidy => ?_) hspelled htidy
    exact n.isProper_of_tidy (n.of_all rfl rfl hspelled) (n.of_all rfl rfl htidy)

/-- A proper body can be printed, and the text without its braces is read as the same tree. -/
theorem parse_of_proper {body : Stmt} (hblock : body.isBlock = true)
    (h : body.all (Node.isProper keywords) = true) (params : List String) :
    ∃ text, Node.print (.stmt body) = .ok text ∧ ∀ chain, ∃ g chain',
      parse (withoutBraces text) params chain = .ok (g, chain') ∧
        g.unbound = .declaring "" params body.unbound := by
  cases body with
  | block ss =>
    have hreadable := (Stmt.block ss).all_of_all (fun n h _ => n.isReadable_of_clean h) h h
    have hspelled := (Stmt.block ss).all_of_all (fun n h _ => n.isSpelled_of_proper h) h h
    refine ⟨(Stmt.block ss).render, if_pos ((Stmt.block ss).complete_of_spelled hspelled), ?_⟩
    exact parse_withoutBraces hreadable params
  | _ => cases hblock

end DefaultLowering.Fragment
