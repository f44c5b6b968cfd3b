import DefaultLowering.Proofs.Coverage
import DefaultLowering.Proofs.LexicalScope

/-!
# What reading a fragment does to the scopes around it

A fragment is read in a chain of scopes that outlives it: the root of a program is shared by all of its
fragments.  Only names that nobody declares leave something behind, in the root and in the order in
which they are first written.

The order is that of the source, and not of the tree.  `uses` lists the words of a tree, and `Aligned`
compares them with the tokens of the source one by one.

- `Use`, `uses`: the words of a tree in their parts, references with the function scopes around them;
- `Derives.aligned`: a phrase has its words in the order of its tokens;
- `lex_located`: tokens stand in the source at their offsets, which grow;
- `Binds.uses`: resolving declares the references that are free, one after the other;
- `foldl_met`: what the root has gained by that;
- `parse_effect`: reading a fragment, with or without success.
-/

namespace DefaultLowering.Fragment

/-! ## Section 1: The words of a tree -/

/-- A word of a fragment in its part. -/
inductive Use where
  /-- A name that scopes decide about, with the function scopes around it from the inside outward. -/
  | reference (ident : String) (scopes : Scopes)
  /-- A keyword, a literal, a member, a property, a variable or a parameter where it is declared. -/
  | word (text : String)

def Use.text : Use → String
  | .reference ident _ => ident
  | .word text => text

mutual

/-- The words of an expression in the order in which they are written.  The expression stands in the
    function scopes `scopes`. -/
def Expr.uses (scopes : Scopes) : Expr → List Use
  | .absent => []
  | .name ident .absent _ =>
    [if isMemberIdent ident then .word ident else .reference ident scopes]
  | .name ident q _ => q.uses scopes ++ [.word ident]
  | .call callee args => callee.uses scopes ++ argsUses scopes args
  | .this => [.word "this"]
  | .literal text => [.word text]
  | .binary _ x y => x.uses scopes ++ y.uses scopes
  | .unary op x => .word op :: x.uses scopes
  | .func f => f.uses scopes

def argsUses (scopes : Scopes) : List Expr → List Use
  | [] => []
  | x :: xs => x.uses scopes ++ argsUses scopes xs

def Stmt.uses (scopes : Scopes) : Stmt → List Use
  | .absent => []
  | .block ss => stmtsUses scopes ss
  | .expr x => x.uses scopes
  | .ret x => .word "return" :: x.uses scopes
  | .var ds => .word "var" :: declsUses scopes ds
  | .cond test yes no => .word "if" :: (test.uses scopes ++ (yes.uses scopes ++ no.uses scopes))

def stmtsUses (scopes : Scopes) : List Stmt → List Use
  | [] => []
  | s :: ss => s.uses scopes ++ stmtsUses scopes ss

def declsUses (scopes : Scopes) : List Decl → List Use
  | [] => []
  | .mk name init :: ds => .word name :: (init.uses scopes ++ declsUses scopes ds)

/-- A function without a name has an empty one. -/
def Function.uses (scopes : Scopes) : Function → List Use
  | .mk name params names body =>
    .word "function" :: .word name :: (params.map .word ++ body.uses (names :: scopes))

end

section

variable (scopes : Scopes) (ident : String) (level : Option Nat)

theorem Expr.uses_qualified {q : Expr} (hq : q ≠ .absent) :
    (Expr.name ident q level).uses scopes = q.uses scopes ++ [.word ident] := by
  cases q with
  | absent => exact absurd rfl hq
  | _ => rfl

/-- A name is the last word of its qualification. -/
theorem Expr.uses_name (q : Expr) :
    ∃ u : Use, u.text = ident ∧ (Expr.name ident q level).uses scopes = q.uses scopes ++ [u] := by
  by_cases hq : q = .absent
  · subst hq
    refine ⟨if isMemberIdent ident then .word ident else .reference ident scopes, ?_, rfl⟩
    split <;> rfl
  · exact ⟨.word ident, rfl, Expr.uses_qualified scopes ident level hq⟩

end

/-! ## Section 2: Words and tokens -/

/-- The tokens that are no words of a tree: operators and separators, and the `else` of a condition. -/
def signs : List String := "else" :: operators

/-- The words are those of the tokens, one by one and in their order.  No token stands for the name of a
    function literal that has none. -/
inductive Aligned : List Token → List Use → Prop where
  | done : Aligned [] []
  | sign {t ts us} : t.text ∈ signs → Aligned ts us → Aligned (t :: ts) us
  | word {t ts u us} : u.text = t.text → Aligned ts us → Aligned (t :: ts) (u :: us)
  | unnamed {ts us} : Aligned ts us → Aligned ts (.word "" :: us)

namespace Aligned

variable {ts ts' : List Token} {us us' : List Use}

theorem append (h : Aligned ts us) (h' : Aligned ts' us') : Aligned (ts ++ ts') (us ++ us') := by
  induction h with
  | done => exact h'
  | sign ht _ ih => exact .sign ht ih
  | word ht _ ih => exact .word ht ih
  | unnamed _ ih => exact .unnamed ih

/-- A token that is a separator. -/
theorem separator {t : Token} {text : String} (ht : t.is text = true) (htext : text ∈ signs)
    (h : Aligned ts us) : Aligned (t :: ts) us := by
  simp only [Token.is, Bool.and_eq_true, beq_iff_eq] at ht
  exact .sign (ht.2 ▸ htext) h

/-- A token that is a keyword. -/
theorem keyword {t : Token} {text : String} (ht : t.is text = true) (h : Aligned ts us) :
    Aligned (t :: ts) (.word text :: us) := by
  simp only [Token.is, Bool.and_eq_true, beq_iff_eq] at ht
  exact .word ht.2.symm h

theorem single {t : Token} {u : Use} (h : u.text = t.text) : Aligned [t] [u] := .word h .done

/-- A word in front of an optional semicolon. -/
theorem ending {e : List Token} (h : Aligned ts us) (he : Ending e) : Aligned (ts ++ e) us := by
  rcases he with rfl | ⟨t, ht, rfl⟩
  · rw [List.append_nil]
    exact h
  · rw [← List.append_nil us]
    exact h.append (.separator ht (by decide) .done)

/-- Words in front of a separator. -/
theorem closed {t : Token} {text : String} (h : Aligned ts us) (ht : t.is text = true)
    (htext : text ∈ signs) (h' : Aligned ts' us') : Aligned (ts ++ t :: ts') (us ++ us') :=
  h.append (.separator ht htext h')

theorem shut {t : Token} {text : String} (h : Aligned ts us) (ht : t.is text = true)
    (htext : text ∈ signs) : Aligned (ts ++ [t]) us := by
  have hclosed := h.closed ht htext .done
  rwa [List.append_nil] at hclosed

theorem naming {name : String} {n : List Token} (hn : Naming name n) : Aligned n [.word name] := by
  rcases hn with ⟨rfl, rfl⟩ | ⟨t, -, rfl, rfl⟩
  · exact .unnamed .done
  · exact single rfl

end Aligned

/-- The words of a phrase that stands in the function scopes `scopes`. -/
def Phrase.uses (scopes : Scopes) : Phrase → List Use
  | .stmts ss => stmtsUses scopes ss
  | .stmt s => s.uses scopes
  | .decls ds => declsUses scopes ds
  | .decl d => declsUses scopes [d]
  | .assign x | .operation _ x | .suffixed x | .primary x => x.uses scopes
  | .args xs => argsUses scopes xs
  | .params names => names.map .word

theorem mem_signs_of_binaryPower {op : String} {k : Nat} (h : binaryPower op = some k) :
    op ∈ signs := by
  unfold binaryPower at h
  split at h <;> first | decide | cases h

theorem text_wordExpr (scopes : Scopes) (text : String) :
    ∃ u : Use, u.text = text ∧ (wordExpr text).uses scopes = [u] := by
  unfold wordExpr
  split
  · next hthis => exact ⟨.word "this", hthis.symm, rfl⟩
  split
  · exact ⟨.word text, rfl, rfl⟩
  · exact Expr.uses_name scopes text none .absent

/-- A phrase has its words in the order of its tokens.  The induction is on the derivation, one rule of
    the grammar after the other. -/
theorem Derives.aligned {φ : Phrase} {ts : List Token} (h : Derives φ ts)
    (scopes : Scopes) : Aligned ts (φ.uses scopes) := by
  induction h generalizing scopes with
  | noStmts => exact .done
  | emptyStmt _ _ hs hss => exact (hs scopes).append (hss scopes)
  | moreStmts _ _ _ hs hss => exact (hs scopes).append (hss scopes)
  | semicolon ht => exact .separator ht (by decide) .done
  | block ho _ hc hss => exact .separator ho (by decide) ((hss scopes).shut hc (by decide))
  | var hv _ he hds => exact .keyword hv ((hds scopes).ending he)
  | bareReturn hr he => exact .keyword hr (Aligned.done.ending he)
  | returnValue hr _ he hx => exact .keyword hr ((hx scopes).ending he)
  | cond hi ho _ hc _ htest hyes =>
    have hbranch := (hyes scopes).append .done
    rw [List.append_nil] at hbranch
    exact .keyword hi (.separator ho (by decide) ((htest scopes).closed hc (by decide) hbranch))
  | condElse hi ho _ hc _ he _ htest hyes hno =>
    have hbranches := (hyes scopes).closed he (by decide) (hno scopes)
    exact .keyword hi (.separator ho (by decide) ((htest scopes).closed hc (by decide) hbranches))
  | exprStmt _ he hx => exact (hx scopes).ending he
  | lastDecl _ hd => exact hd scopes
  | @moreDecls d ts c ds us _ hc _ hd hds =>
    obtain ⟨name, init⟩ := d
    have hall := (hd scopes).closed hc (by decide) (hds scopes)
    simpa [Phrase.uses, declsUses] using hall
  | bareDecl => exact .single rfl
  | initDecl _ he _ hx =>
    have hinit := (hx scopes).append .done
    rw [List.append_nil] at hinit
    exact .word rfl (.separator he (by decide) hinit)
  | unassigned _ hx => exact hx scopes
  | assignment _ he _ hx hy => exact (hx scopes).closed he (by decide) (hy scopes)
  | binary _ ho _ _ hx hy => exact (hx scopes).append (.sign (mem_signs_of_binaryPower ho) (hy scopes))
  | tighter _ _ _ hx => exact hx scopes
  | unary _ _ hx => exact .word rfl (hx scopes)
  | plain _ hx => exact hx scopes
  | unsuffixed _ hx => exact hx scopes
  | @property x ts d n _ hd _ hx =>
    obtain ⟨u, hu, huses⟩ := Expr.uses_name scopes n.text none x
    rw [Phrase.uses, huses]
    exact (hx scopes).closed hd (by decide) (.single hu)
  | call _ ho _ hc hx hxs => exact (hx scopes).closed ho (by decide) ((hxs scopes).shut hc (by decide))
  | noArgs => exact .done
  | lastArg _ hx =>
    have harg := (hx scopes).append .done
    rwa [List.append_nil] at harg
  | moreArgs _ hc _ _ hx hxs => exact (hx scopes).closed hc (by decide) (hxs scopes)
  | literal => exact .single rfl
  | @member t _ =>
    obtain ⟨u, hu, huses⟩ := Expr.uses_name scopes t.text none .absent
    rw [Phrase.uses, huses]
    exact .single hu
  | @word t _ _ _ =>
    obtain ⟨u, hu, huses⟩ := text_wordExpr scopes t.text
    rw [Phrase.uses, huses]
    exact .single hu
  | parens ho _ hc hx => exact .separator ho (by decide) ((hx scopes).shut hc (by decide))
  | @func k name n o ps us c b ss ts e hk hn ho _ hc hb _ he hps hss =>
    have hbody := (hss ((Function.declaring name ps (.block ss)).names :: scopes)).shut he
      (by decide)
    have hparams := (hps scopes).closed hc (by decide) (.separator hb (by decide) hbody)
    exact .keyword hk ((Aligned.naming hn).closed ho (by decide) hparams)
  | noParams => exact .done
  | lastParam => exact .single rfl
  | lastParamComma _ hc => exact .word rfl (.separator hc (by decide) .done)
  | moreParams _ hc _ _ hps => exact .word rfl (.separator hc (by decide) (hps scopes))

/-! ## Section 3: Tokens and the source -/

/-- The token stands in the text, as many bytes behind its beginning as its offset says. -/
def Token.StandsIn (cs : List Char) (t : Token) : Prop :=
  ∃ before after, cs = before ++ (t.text.toList ++ after) ∧ t.offset = Text.byteLength before

theorem lex_located {source : String} {tokens : List Token} {stop : Nat}
    (h : lex source = .ok ⟨tokens, stop⟩) : (∀ t ∈ tokens, t.StandsIn source.toList) ∧
      (tokens.map Token.offset).Pairwise (· < ·) := by
  have hcovers := covers_of_lex h
  refine ⟨?_, (List.pairwise_append.mp hcovers.sorted).1⟩
  intro t ht
  obtain ⟨before, after, htext, hoffset, -⟩ := hcovers.stands t ht
  exact ⟨before, after, htext, hoffset⟩

/-! ## Section 4: Free references -/

/-- The word is a reference which neither the function scopes around it nor the scopes `outside`
    declare. -/
def Use.IsFree (outside : Scopes) : Use → Prop
  | .reference ident scopes => ∀ names ∈ scopes ++ outside, ident ∉ names
  | .word _ => False

instance (outside : Scopes) : (u : Use) → Decidable (u.IsFree outside)
  | .reference ident scopes =>
    inferInstanceAs (Decidable (∀ names ∈ scopes ++ outside, ident ∉ names))
  | .word _ => inferInstanceAs (Decidable False)

/-- What the root declares once the word has been met.  The scopes `outer` stand between it and the
    fragment. -/
def Use.met (outer : Scopes) (names : List String) (u : Use) : List String :=
  if u.IsFree outer then declare u.text names else names

def Part.uses (scopes : Scopes) : Part → List Use
  | .expr x => x.uses scopes
  | .args xs => argsUses scopes xs
  | .stmt s => s.uses scopes
  | .stmts ss => stmtsUses scopes ss
  | .decls ds => declsUses scopes ds
  | .function f => f.uses scopes

@[simp] theorem Use.met_word (outer : Scopes) (names : List String) (text : String) :
    (Use.word text).met outer names = names := rfl

/-- Resolving keeps the words of a part, and the root meets them in their order.  The scopes of the
    functions around the part are the first of the scopes that it stands in. -/
theorem Binds.uses {around outer scopes : Scopes} {a b : Part} {names names' : List String}
    (h : Binds around a names b names') (haround : around = scopes ++ outer) :
    b.uses scopes = a.uses scopes ∧ names' = (a.uses scopes).foldl (Use.met outer) names := by
  induction h generalizing scopes with
  | absent | this | literal | noArgs | absentStmt | noStmts | noDecls => exact ⟨rfl, rfl⟩
  | member hident => simp [Part.uses, Expr.uses, hident]
  | alone hident =>
    subst haround
    simp only [Part.uses, Expr.uses, hident, Bool.false_eq_true, if_false, List.foldl_cons, List.foldl_nil,
      true_and]
    exact if_congr levelOf_eq_length rfl rfl
  | qualified hq hq' _ ih =>
    obtain ⟨huses, hnames⟩ := ih haround
    simp only [Part.uses] at huses hnames
    simp only [Part.uses, Expr.uses_qualified _ _ _ hq', Expr.uses_qualified _ _ _ hq, huses,
      List.foldl_append, ← hnames, List.foldl_cons, List.foldl_nil, Use.met_word, and_self]
  | call _ _ ih ih' | binary _ _ ih ih' | moreArgs _ _ ih ih' | moreStmts _ _ ih ih' | moreDecls _ _ ih ih' =>
    obtain ⟨huses, hnames⟩ := ih haround
    obtain ⟨huses', hnames'⟩ := ih' haround
    simp only [Part.uses] at huses huses' hnames hnames'
    simp only [Part.uses, Expr.uses, argsUses, stmtsUses, declsUses, huses, huses', List.foldl_append,
      List.foldl_cons, Use.met_word, ← hnames, ← hnames', and_self]
  | cond _ _ _ ih ih' ih'' =>
    obtain ⟨huses, hnames⟩ := ih haround
    obtain ⟨huses', hnames'⟩ := ih' haround
    obtain ⟨huses'', hnames''⟩ := ih'' haround
    simp only [Part.uses] at huses huses' huses'' hnames hnames' hnames''
    simp only [Part.uses, Stmt.uses, huses, huses', huses'', List.foldl_append, List.foldl_cons,
      Use.met_word, ← hnames, ← hnames', ← hnames'', and_self]
  | @function _ _ params declared _ _ names _ _ ih =>
    have hparams : (params.map Use.word).foldl (Use.met outer) names = names := by
      rw [List.foldl_map]
      exact List.foldl_fixed params
    have hinner : declared :: _ = (declared :: scopes) ++ outer := congrArg (declared :: ·) haround
    obtain ⟨huses, hnames⟩ := ih hinner
    simp only [Part.uses] at huses hnames
    simp only [Part.uses, Function.uses, huses, List.foldl_cons, List.foldl_append, Use.met_word, hparams,
      ← hnames, and_self]
  | unary _ ih | func _ ih | block _ ih | exprStmt _ ih | ret _ ih | var _ ih =>
    obtain ⟨huses, hnames⟩ := ih haround
    simp only [Part.uses] at huses hnames
    simp only [Part.uses, Expr.uses, Stmt.uses, huses, List.foldl_cons, Use.met_word, ← hnames, and_self]

/-! ## Section 5: What the root gains -/

theorem Use.isFree_append {root : List String} {outer : Scopes} {ident : String}
    {u : Use} : u.IsFree ((root ++ [ident]) :: outer) ↔
      u.IsFree (root :: outer) ∧ u.text ≠ ident := by
  cases u with
  | word => simp [Use.IsFree]
  | reference =>
    simp only [Use.IsFree, Use.text, List.mem_append, List.mem_cons, or_imp, forall_and,
      forall_eq, List.not_mem_nil, or_false, not_or]
    tauto

/-- Met one after the other, the free references add what the root did not have, each once and in the
    order in which they come. -/
theorem foldl_met (outer : Scopes) (us : List Use) (root : List String) :
    us.foldl (Use.met outer) root =
      root ++ ((us.filter (·.IsFree (root :: outer))).map Use.text).eraseDups := by
  induction us generalizing root with
  | nil => simp
  | cons u us ih =>
    have hcases : u.IsFree (root :: outer) ↔ u.IsFree outer ∧ u.text ∉ root := by
      cases u with
      | word => simp [Use.IsFree]
      | reference =>
        simp only [Use.IsFree, Use.text, List.mem_append, List.mem_cons, or_imp, forall_and, forall_eq]
        tauto
    rw [List.foldl_cons, Use.met]
    by_cases hfree : u.IsFree (root :: outer)
    · -- the root gets the name, and later references to it are free no more
      obtain ⟨houter, hroot⟩ := hcases.mp hfree
      have hlater : (us.filter (·.IsFree ((root ++ [u.text]) :: outer))).map Use.text =
          ((us.filter (·.IsFree (root :: outer))).map Use.text).filter fun x => !x == u.text := by
        rw [List.filter_map, List.filter_filter]
        refine congrArg _ (List.filter_congr fun v _ => ?_)
        rw [Bool.eq_iff_iff]
        simp [Use.isFree_append, and_comm]
      rw [if_pos houter, declare, if_neg hroot, ih, List.filter_cons_of_pos (by simpa using hfree),
        List.map_cons, List.eraseDups_cons, hlater, List.append_assoc, List.singleton_append]
    · have hkept : (if u.IsFree outer then declare u.text root else root) = root := by
        split
        · next houter =>
          have hroot : u.text ∈ root := by
            by_contra hroot
            exact hfree (hcases.mpr ⟨houter, hroot⟩)
          rw [declare, if_pos hroot]
        · rfl
      rw [hkept, ih, List.filter_cons_of_neg (by simpa using hfree)]

/-! ## Section 6: Reading a fragment -/

/-- The chain that the attempt to read a fragment leaves. -/
def Chain.afterReading (chain : Chain) (source : String) (params : List String) : Chain :=
  ((reading source params).run.run chain).2

/-- Whether a fragment can be read, and what is wrong with it, is found before parameters are
    declared. -/
theorem readFragment_of_error {source : String} {params : List String} {e : SyntaxError}
    (h : readFragment source params = .error e) (params' : List String) :
    readFragment source params' = .error e := by
  unfold readFragment at h ⊢
  cases hlex : lex source with
  | error =>
    rw [hlex] at h
    exact h
  | ok stream =>
    rw [hlex] at h
    cases hstmts : readStmts stream.stop none stream.tokens with
    | error =>
      simp only [bind, Except.bind, hstmts] at h ⊢
      exact h
    | ok =>
      simp only [bind, Except.bind, hstmts] at h
      cases h

/-- A fragment that cannot be read is refused before any scope is looked at. -/
theorem parse_eq_error {source : String} {params : List String} {chain : Chain} {e : SyntaxError} :
    parse source params chain = .error e ↔ readFragment source params = .error e := by
  rw [parse_eq]
  cases readFragment source params with
  | error =>
    exact ⟨fun h => congrArg _ (Except.error.inj h), fun h => congrArg _ (Except.error.inj h)⟩
  | ok =>
    constructor
    · intro h
      cases h
    · intro h
      cases h

/-- What is wrong with a fragment is found before the scopes are touched. -/
theorem Chain.afterReading_of_error {source : String} {params : List String} {chain : Chain}
    {e : SyntaxError} (h : parse source params chain = .error e) :
    chain.afterReading source params = chain := by
  rw [parse_eq_error] at h
  rw [afterReading, reading, h]
  rfl

theorem Chain.afterReading_of_ok {source : String} {params : List String} {chain chain' : Chain}
    {f : Function} (h : parse source params chain = .ok (f, chain')) :
    chain.afterReading source params = chain' := by
  unfold parse at h
  unfold afterReading
  split at h
  · next hrun =>
    cases h
    rw [hrun]
  · cases h

/-- What reading a fragment in a chain has done to the chain. -/
structure Gained (source : String) (chain : Chain) (f : Function) (chain' : Chain) : Prop where
  inner : chain'.inner = chain.inner
  desc : chain'.root.desc = chain.root.desc
  /-- The root has got the names of the free references, each once, in the order of the words. -/
  root : chain'.root.names = chain.root.names ++
    (((f.body.uses [f.names]).filter
      (·.IsFree (chain.fromRoot.map Scope.names))).map Use.text).eraseDups
  /-- The words are those of the source, in their order. -/
  ordered : ∃ tokens stop, lex source = .ok ⟨tokens, stop⟩ ∧
    (∀ t ∈ tokens, t.StandsIn source.toList) ∧ (tokens.map Token.offset).Pairwise (· < ·) ∧
    Aligned tokens (f.body.uses [f.names])

theorem Use.isFree_fromRoot {chain : Chain} {u : Use} :
    u.IsFree (chain.fromRoot.map Scope.names) ↔
      u.IsFree (chain.root.names :: chain.inner.map Scope.names) := by
  cases u with
  | word => exact Iff.rfl
  | reference => simp [Use.IsFree, Chain.fromRoot, or_imp, forall_and]

theorem gained_of_parse {source : String} {params : List String} {chain chain' : Chain}
    {f : Function} (h : parse source params chain = .ok (f, chain')) :
    Gained source chain f chain' := by
  obtain ⟨g, hg, hbind, -⟩ := readFragment_of_parse h
  obtain ⟨tokens, stop, ss, hlex, hderives, rfl⟩ := readFragment_derives hg
  obtain ⟨hlocated, hsorted⟩ := lex_located hlex
  -- the body is resolved with the scope of the fragment around it
  let names := (Function.declaring "" params (.block ss)).names
  have hbinds := binds_bindStmt ([names] ++ chain.inner.map Scope.names) (.block ss) chain.root.names
  obtain ⟨huses, hnames⟩ := hbinds.uses rfl
  rw [foldl_met] at hnames
  have hf : f = .mk "" params names ((bindStmt (names :: chain.inner.map Scope.names)
    (.block ss)).run chain.root.names).1 := (congrArg Prod.fst hbind).symm
  have hwords : f.body.uses [f.names] = stmtsUses [names] ss := by
    rw [hf]
    exact huses
  have hchain : chain' = { chain with root := { chain.root with
      names := ((bindStmt (names :: chain.inner.map Scope.names) (.block ss)).run
        chain.root.names).2 } } := (congrArg Prod.snd hbind).symm
  refine ⟨by rw [hchain], by rw [hchain], ?_, tokens, stop, hlex, hlocated, hsorted, ?_⟩
  · rw [hwords, hchain]
    simp only [Use.isFree_fromRoot]
    exact hnames
  · rw [hwords]
    exact hderives.aligned [names]

/-- Reading a fragment changes no scope if it fails, which is decided by the source alone.  If it
    succeeds, it changes the root of the chain only, which gains the names that are free in the
    fragment, each once and in the order in which they first stand in the source. -/
theorem parse_effect (source : String) (params : List String) (chain : Chain) :
    (∀ e, parse source params chain = .error e →
      chain.afterReading source params = chain ∧
        ∀ params' chain', parse source params' chain' = .error e) ∧
    ∀ f chain', parse source params chain = .ok (f, chain') →
      chain.afterReading source params = chain' ∧ Gained source chain f chain' := by
  refine ⟨?_, ?_⟩
  · intro e h
    refine ⟨Chain.afterReading_of_error h, ?_⟩
    intro params' chain'
    exact parse_eq_error.mpr (readFragment_of_error (parse_eq_error.mp h) params')
  · intro f chain' h
    exact ⟨Chain.afterReading_of_ok h, gained_of_parse h⟩

/-- Names that are free, hoisted, shadowed, declared further out and declared only later; and the same
    source with one token too few. -/
theorem parse_effect_example :
    let source := "c(b, x); var x = function (a) \x7b return a + o + b + d + v; var v; \x7d; a + c"
    let chain : Chain := ⟨[⟨"outer", ["o"]⟩], ⟨"root", ["d"]⟩⟩
    (∃ f chain', parse source ["p"] chain = .ok (f, chain') ∧ Gained source chain f chain' ∧
      chain'.root.names = ["d", "c", "b", "a"]) ∧
    ∃ e, parse (source ++ " +") ["p"] chain = .error e ∧
      parse (source ++ " +") [] .empty = .error e := by
  intro source chain
  refine ⟨?_, ?_⟩
  · have hroot : (parse source ["p"] chain).toOption.map (·.2.root.names) =
        some ["d", "c", "b", "a"] := by decide +kernel
    cases hparse : parse source ["p"] chain with
    | error => rw [hparse] at hroot; cases hroot
    | ok found =>
      rw [hparse] at hroot
      have heffect := (parse_effect source ["p"] chain).2 found.1 found.2 hparse
      exact ⟨found.1, found.2, rfl, heffect.2, Option.some.inj hroot⟩
  · have hfails : (parse (source ++ " +") ["p"] chain).isOk = false := by decide +kernel
    cases hparse : parse (source ++ " +") ["p"] chain with
    | error e => exact ⟨e, rfl, ((parse_effect (source ++ " +") ["p"] chain).1 e hparse).2 [] .empty⟩
    | ok => rw [hparse] at hfails; cases hfails

end DefaultLowering.Fragment
