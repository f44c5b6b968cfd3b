import DefaultLowering.Proofs.Deriving

/-!
# Lexical scope

Which declaration an unqualified name of an accepted fragment denotes.  The rule is said on trees
alone: `Within` gives the scopes around every place of a tree, `Stmt.Declares` what a function scope
declares, and `Nearest` the scope that decides about a name.

- `Settles`: what resolving the names of a tree has done, to the tree and to the root;
- `settles_bindFunction`: resolving goes by that rule, whatever the tree;
- `parse_lexical`: accepted fragments are resolved by lexical scope.
-/

namespace DefaultLowering.Fragment

/-! ## Section 1: The scopes around a place -/

/-- A name as it stands in a tree. -/
structure Mention where
  ident : String
  qualifier : Expr
  level : Option Nat

/-- The name is one that scopes decide about: it stands alone and is not that of a member. -/
def Mention.IsLexical (m : Mention) : Prop :=
  m.qualifier = .absent ∧ isMemberIdent m.ident = false

/-- What scoping looks at: names, and function literals, which have scopes of their own. -/
inductive Item where
  | mention (m : Mention)
  | literal (f : Function)

mutual

/-- The items of an expression, without those inside of function literals. -/
def Expr.items : Expr → List Item
  | .absent => []
  | .name ident q level => .mention ⟨ident, q, level⟩ :: q.items
  | .call callee args => callee.items ++ argsItems args
  | .this => []
  | .literal _ => []
  | .binary _ x y => x.items ++ y.items
  | .unary _ x => x.items
  | .func f => [.literal f]

def argsItems : List Expr → List Item
  | [] => []
  | x :: xs => x.items ++ argsItems xs

end

/-- The items of the initial values. -/
def declsItems : List Decl → List Item
  | [] => []
  | .mk _ init :: ds => init.items ++ declsItems ds

mutual

/-- The items of a statement, without those inside of function literals. -/
def Stmt.items : Stmt → List Item
  | .absent => []
  | .block ss => stmtsItems ss
  | .expr x => x.items
  | .ret x => x.items
  | .var ds => declsItems ds
  | .cond test yes no => test.items ++ (yes.items ++ no.items)

def stmtsItems : List Stmt → List Item
  | [] => []
  | s :: ss => s.items ++ stmtsItems ss

end

/-- `Within around i j scopes`: the item `j` stands in the item `i`, which stands in the scopes
    `around`, and `scopes` are the scopes around `j`, both from the inside outward.  The scope of a
    function literal lies directly in that of the function that contains it. -/
inductive Within : Scopes → Item → Item → Scopes → Prop where
  | here {around i} : Within around i i around
  | inside {around f i j scopes} : i ∈ f.body.items → Within (f.names :: around) i j scopes →
      Within around (.literal f) j scopes

/-- The statement declares the variable, outside of function literals. -/
inductive Stmt.Declares (x : String) : Stmt → Prop where
  | var {ds d} : d ∈ ds → d.name = x → Declares x (.var ds)
  | block {ss s} : s ∈ ss → Declares x s → Declares x (.block ss)
  | yes {test yes no} : Declares x yes → Declares x (.cond test yes no)
  | no {test yes no} : Declares x no → Declares x (.cond test yes no)

/-- The scope `n` steps outward declares the identifier, and no scope before it does. -/
def Nearest (scopes : Scopes) (ident : String) (n : Nat) : Prop :=
  (∃ names, scopes[n]? = some names ∧ ident ∈ names) ∧
    ∀ k < n, ∀ names, scopes[k]? = some names → ident ∉ names

/-- A literal inside of another one stands in the scope of the function that directly contains
    it. -/
theorem Within.parent {around scopes : Scopes} {i : Item} {g : Function}
    (h : Within around i (.literal g) scopes) :
    (i = .literal g ∧ scopes = around) ∨
      ∃ f outer, Within around i (.literal f) outer ∧ .literal g ∈ f.body.items ∧
        scopes = f.names :: outer := by
  generalize hj : Item.literal g = j at h
  -- from the outside inward; `g` is found at the last step
  induction h with
  | here => exact .inl ⟨rfl, rfl⟩
  | @inside around f i j scopes hi h ih =>
    rcases ih hj with ⟨hsame, hscopes⟩ | ⟨h, outer, hwithin, hg, hscopes⟩
    · exact .inr ⟨f, around, .here, hsame ▸ hi, hscopes⟩
    · exact .inr ⟨h, outer, .inside hi hwithin, hg, hscopes⟩

/-! ## Section 2: What a function scope declares -/

theorem mem_withoutRepeats {x : String} {xs seen : List String} :
    x ∈ withoutRepeats seen xs ↔ x ∈ seen ∨ x ∈ xs := by
  induction xs generalizing seen with
  | nil => simp [withoutRepeats]
  | cons y ys ih =>
    rw [withoutRepeats, ih]
    split <;> grind

theorem nodup_withoutRepeats {xs seen : List String} (h : seen.Nodup) :
    (withoutRepeats seen xs).Nodup := by
  induction xs generalizing seen with
  | nil => exact h
  | cons y ys ih =>
    rw [withoutRepeats]
    apply ih
    split
    · exact h
    · next hy => exact List.nodup_append.mpr ⟨h, by simp, by grind⟩

mutual

/-- The variables that a scope takes from a body are those that the body declares. -/
theorem Stmt.mem_declared {x : String} (s : Stmt) : x ∈ s.declared ↔ s.Declares x := by
  cases s with
  | var =>
    constructor
    · intro hx
      obtain ⟨d, hd, hname⟩ := List.mem_map.mp hx
      exact .var hd hname
    · intro hx
      cases hx with
      | var hd hname => exact List.mem_map.mpr ⟨_, hd, hname⟩
  | block ss =>
    rw [Stmt.declared, mem_declaredIn ss]
    constructor
    · intro ⟨s, hs, hx⟩
      exact .block hs hx
    · intro hx
      cases hx with
      | block hs hx => exact ⟨_, hs, hx⟩
  | cond test yes no =>
    rw [Stmt.declared, List.mem_append, Stmt.mem_declared yes, Stmt.mem_declared no]
    constructor
    · intro hx
      exact hx.elim .yes .no
    · intro hx
      cases hx with
      | yes hx => exact .inl hx
      | no hx => exact .inr hx
  | _ =>
    constructor
    · intro hx
      cases hx
    · intro hx
      cases hx

theorem mem_declaredIn {x : String} (ss : List Stmt) :
    x ∈ declaredIn ss ↔ ∃ s ∈ ss, s.Declares x := by
  cases ss with
  | nil => simp [declaredIn]
  | cons s ss =>
    rw [declaredIn, List.mem_append, Stmt.mem_declared s, mem_declaredIn ss, List.exists_mem_cons_iff]

end

theorem names_declsUnbound (ds : List Decl) :
    (declsUnbound ds).map Decl.name = ds.map Decl.name := by
  induction ds with
  | nil => rfl
  | cons d ds ih =>
    cases d with
    | mk => simp only [declsUnbound, Decl.unbound, List.map_cons, Decl.name, ih]

mutual

/-- Resolving the names of a statement has no part in what it declares. -/
theorem Stmt.declared_unbound (s : Stmt) : s.unbound.declared = s.declared := by
  cases s with
  | var ds => exact names_declsUnbound ds
  | block ss => exact declaredIn_stmtsUnbound ss
  | cond test yes no =>
    simp only [Stmt.unbound, Stmt.declared, Stmt.declared_unbound yes, Stmt.declared_unbound no]
  | _ => rfl

theorem declaredIn_stmtsUnbound (ss : List Stmt) :
    declaredIn (stmtsUnbound ss) = declaredIn ss := by
  cases ss with
  | nil => rfl
  | cons s ss =>
    simp only [stmtsUnbound, declaredIn, Stmt.declared_unbound s, declaredIn_stmtsUnbound ss]

end

/-- The scope of the function is the one that its parameters and its body declare. -/
def Function.IsDeclaring (f : Function) : Prop :=
  f.names = withoutRepeats [] (f.params ++ f.body.declared)

theorem Function.IsDeclaring.nodup {f : Function} (h : f.IsDeclaring) : f.names.Nodup := by
  rw [h]
  exact nodup_withoutRepeats List.nodup_nil

theorem Function.IsDeclaring.mem_names {f : Function} (h : f.IsDeclaring) (x : String) :
    x ∈ f.names ↔ x ∈ f.params ∨ f.body.Declares x := by
  rw [h, mem_withoutRepeats, List.mem_append, f.body.mem_declared]
  simp

/-! ## Section 3: The nearest scope -/

section

variable {around : Scopes} {ident : String}

/-- A name of which all scopes know nothing goes to the root. -/
theorem levelOf_eq_length : levelOf around ident = around.length ↔ ∀ names ∈ around, ident ∉ names := by
  rw [levelOf, List.findIdx_eq_length]
  simp

/-- The level of a name counts to the nearest scope that declares it, the root being the last. -/
theorem nearest_levelOf {root : List String} (h : (∀ names ∈ around, ident ∉ names) → ident ∈ root) :
    Nearest (around ++ [root]) ident (levelOf around ident) := by
  have hle : levelOf around ident ≤ around.length := List.findIdx_le_length
  constructor
  · by_cases hlt : levelOf around ident < around.length
    · -- a scope of the list declares it
      have hfound : (around[levelOf around ident]).contains ident = true :=
        List.findIdx_getElem (w := hlt)
      refine ⟨around[levelOf around ident], ?_, List.contains_iff_mem.mp hfound⟩
      rw [List.getElem?_append_left hlt, List.getElem?_eq_getElem hlt]
    · have hlength : levelOf around ident = around.length := by omega
      refine ⟨root, ?_, h (levelOf_eq_length.mp hlength)⟩
      rw [hlength, List.getElem?_append_right (Nat.le_refl _), Nat.sub_self]
      rfl
  · intro k hk names hnames hident
    have hlt : k < around.length := by omega
    rw [List.getElem?_append_left hlt, List.getElem?_eq_getElem hlt] at hnames
    have hmiss : (around[k]).contains ident = false := List.not_of_lt_findIdx hk
    rw [Option.some.inj hnames, List.contains_iff_mem.mpr hident] at hmiss
    cases hmiss

end

/-- The name carries the level that the scopes around it give it, or none. -/
structure Mention.Resolved (m : Mention) (scopes : Scopes) : Prop where
  lexical : m.IsLexical → m.level = some (levelOf scopes m.ident)
  other : ¬ m.IsLexical → m.level = none

/-- The name is left to the root. -/
def Mention.LeftToRoot (m : Mention) (scopes : Scopes) : Prop :=
  m.IsLexical ∧ ∀ names ∈ scopes, m.ident ∉ names

/-! ## Section 4: Resolving -/

/-- Names have been resolved, in items that stand in the scopes `around`.  Before, the root has
    declared `names`, and it declares `names'` now. -/
structure Settles (around : Scopes) (items : List Item) (names names' : List String) :
    Prop where
  resolved : ∀ i ∈ items, ∀ m scopes, Within around i (.mention m) scopes → m.Resolved scopes
  declaring : ∀ i ∈ items, ∀ g scopes, Within around i (.literal g) scopes → g.IsDeclaring
  kept : names <+: names'
  root : ∀ x, x ∈ names' ↔ x ∈ names ∨ ∃ i ∈ items, ∃ m scopes,
    Within around i (.mention m) scopes ∧ m.LeftToRoot scopes ∧ m.ident = x

namespace Settles

variable {around : Scopes} {items items' : List Item}
  {names names' names'' : List String}

theorem nil : Settles around [] names names where
  resolved := nofun
  declaring := nofun
  kept := List.prefix_refl names
  root x := by simp

/-- Trees are resolved one after the other. -/
theorem append (h : Settles around items names names') (h' : Settles around items' names' names'') :
    Settles around (items ++ items') names names'' where
  resolved i hi := (List.mem_append.mp hi).elim (h.resolved i) (h'.resolved i)
  declaring i hi := (List.mem_append.mp hi).elim (h.declaring i) (h'.declaring i)
  kept := h.kept.trans h'.kept
  root x := by
    rw [h'.root, h.root, or_assoc]
    apply or_congr_right
    constructor
    · intro hx
      rcases hx with ⟨i, hi, hx⟩ | ⟨i, hi, hx⟩
      · exact ⟨i, List.mem_append_left _ hi, hx⟩
      · exact ⟨i, List.mem_append_right _ hi, hx⟩
    · intro ⟨i, hi, hx⟩
      exact (List.mem_append.mp hi).imp (⟨i, ·, hx⟩) (⟨i, ·, hx⟩)

/-- Only one scope list stands around a name that is no part of a function literal. -/
theorem within_mention {m m' : Mention} {scopes : Scopes}
    (h : Within around (.mention m) (.mention m') scopes) : m' = m ∧ scopes = around := by
  cases h
  exact ⟨rfl, rfl⟩

/-- A single name has been resolved, and the root declares it if it is left to it. -/
theorem mention {m : Mention} (hm : m.Resolved around) (hkept : names <+: names')
    (hroot : ∀ x, x ∈ names' ↔ x ∈ names ∨ (m.LeftToRoot around ∧ m.ident = x)) :
    Settles around [.mention m] names names' where
  resolved i hi m' scopes hwithin := by
    rw [List.mem_singleton.mp hi] at hwithin
    obtain ⟨rfl, rfl⟩ := within_mention hwithin
    exact hm
  declaring i hi g scopes hwithin := by
    rw [List.mem_singleton.mp hi] at hwithin
    cases hwithin
  kept := hkept
  root x := by
    rw [hroot x]
    apply or_congr_right
    constructor
    · intro hx
      exact ⟨.mention m, List.mem_singleton_self _, m, around, .here, hx⟩
    · intro ⟨i, hi, m', scopes, hwithin, hx⟩
      rw [List.mem_singleton.mp hi] at hwithin
      obtain ⟨rfl, rfl⟩ := within_mention hwithin
      exact hx

/-- A name that scopes do not decide about keeps having no level. -/
theorem other {m : Mention} (hm : ¬ m.IsLexical) (hlevel : m.level = none) :
    Settles around [.mention m] names names := by
  apply mention ⟨fun h => absurd h hm, fun _ => hlevel⟩ (List.prefix_refl names)
  intro x
  exact ⟨.inl, fun h => h.resolve_right fun hx => hm hx.1.1⟩

/-- A name that scopes decide about gets its level. -/
theorem lexical {ident : String} (hident : isMemberIdent ident = false) :
    Settles around [.mention ⟨ident, .absent, some (levelOf around ident)⟩] names
      (if levelOf around ident = around.length then declare ident names else names) := by
  have hlexical : (⟨ident, .absent, some (levelOf around ident)⟩ : Mention).IsLexical :=
    ⟨rfl, hident⟩
  apply mention ⟨fun _ => rfl, fun h => absurd hlexical h⟩
  · unfold declare
    split
    · split
      · exact List.prefix_refl names
      · exact List.prefix_append names [ident]
    · exact List.prefix_refl names
  · intro x
    have hleft : Mention.LeftToRoot ⟨ident, .absent, some (levelOf around ident)⟩ around ↔
        levelOf around ident = around.length :=
      ⟨fun h => levelOf_eq_length.mpr h.2, fun h => ⟨hlexical, levelOf_eq_length.mp h⟩⟩
    rw [hleft]
    unfold declare
    split <;> grind

/-- A function literal is resolved when its body is, with its own scope around it. -/
theorem literal {f : Function} (hf : f.IsDeclaring)
    (h : Settles (f.names :: around) f.body.items names names') :
    Settles around [.literal f] names names' where
  resolved i hi m scopes hwithin := by
    rw [List.mem_singleton.mp hi] at hwithin
    cases hwithin with
    | inside hj hwithin => exact h.resolved _ hj m scopes hwithin
  declaring i hi g scopes hwithin := by
    rw [List.mem_singleton.mp hi] at hwithin
    cases hwithin with
    | here => exact hf
    | inside hj hwithin => exact h.declaring _ hj g scopes hwithin
  kept := h.kept
  root x := by
    rw [h.root x]
    apply or_congr_right
    constructor
    · intro ⟨i, hi, m, scopes, hwithin, hx⟩
      exact ⟨.literal f, List.mem_singleton_self _, m, scopes, .inside hi hwithin, hx⟩
    · intro ⟨i, hi, m, scopes, hwithin, hx⟩
      rw [List.mem_singleton.mp hi] at hwithin
      cases hwithin with
      | inside hj hwithin => exact ⟨_, hj, m, scopes, hwithin, hx⟩

end Settles

/-- The items of a part. -/
def Part.items : Part → List Item
  | .expr x => x.items
  | .args xs => argsItems xs
  | .stmt s => s.items
  | .stmts ss => stmtsItems ss
  | .decls ds => declsItems ds
  | .function f => [.literal f]

/-- A part without resolved names is resolved by lexical scope.  The scopes around it grow at function
    literals, and what the root declares goes from one part to the next. -/
theorem Binds.settles {around : Scopes} {a b : Part} {names names' : List String}
    (h : Binds around a names b names') (ha : a.unbound = a) : Settles around b.items names names' := by
  induction h with
  | absent | this | literal | noArgs | absentStmt | noStmts | noDecls => exact .nil
  | alone hident => exact .lexical hident
  | member hident =>
    simp only [Part.unbound, Expr.unbound, Part.expr.injEq, Expr.name.injEq, true_and] at ha
    refine Settles.other (fun hlexical => ?_) ha.symm
    exact Bool.noConfusion (hident.symm.trans hlexical.2)
  | qualified hq hq' _ ih =>
    simp only [Part.unbound, Expr.unbound, Part.expr.injEq, Expr.name.injEq, true_and] at ha ih
    -- the name itself has a qualifier, also when that has been resolved
    exact (Settles.other (fun hlexical => hq' hlexical.1) ha.2.symm).append (ih ha.1)
  | call _ _ ih ih' | binary _ _ ih ih' | moreArgs _ _ ih ih' | moreStmts _ _ ih ih' | moreDecls _ _ ih ih' =>
    simp only [Part.unbound, Expr.unbound, argsUnbound, stmtsUnbound, Decl.unbound, declsUnbound,
      Part.expr.injEq, Part.args.injEq, Part.stmt.injEq, Part.stmts.injEq, Part.decls.injEq,
      Expr.call.injEq, Expr.binary.injEq, List.cons.injEq, Decl.mk.injEq, true_and] at ha ih ih'
    exact (ih ha.1).append (ih' ha.2)
  | cond _ _ _ ih ih' ih'' =>
    simp only [Part.unbound, Stmt.unbound, Part.expr.injEq, Part.stmt.injEq, Stmt.cond.injEq] at ha ih ih' ih''
    exact (ih ha.1).append ((ih' ha.2.1).append (ih'' ha.2.2))
  | function hbinds ih =>
    simp only [Part.unbound, Function.unbound, Function.declaring, Part.function.injEq, Part.stmt.injEq,
      Function.mk.injEq, true_and] at ha ih
    refine Settles.literal ?_ (ih ha.2)
    -- resolving the body has not changed what it declares
    have hbody := Part.stmt.inj hbinds.unbound
    rw [Function.IsDeclaring, Function.names, Function.body, ← Stmt.declared_unbound, hbody]
    exact ha.1.symm
  | unary _ ih | func _ ih | block _ ih | exprStmt _ ih | ret _ ih | var _ ih =>
    simp only [Part.unbound, Expr.unbound, Stmt.unbound, Part.expr.injEq, Part.stmt.injEq, Part.stmts.injEq,
      Part.decls.injEq, Part.function.injEq, Expr.unary.injEq, Expr.func.injEq, Stmt.block.injEq,
      Stmt.expr.injEq, Stmt.ret.injEq, Stmt.var.injEq, true_and] at ha ih
    exact ih ha

theorem settles_bindFunction (around : Scopes) (f : Function) (hf : f.unbound = f)
    (names : List String) : Settles around [.literal ((bindFunction around f).run names).1] names
      ((bindFunction around f).run names).2 :=
  (binds_bindFunction around f names).settles (congrArg Part.function hf)

/-! ## Section 5: Accepted fragments -/

/-- Reading a fragment resolves its names. -/
theorem settles_of_parse {source : String} {params : List String} {chain chain' : Chain}
    {f : Function} (h : parse source params chain = .ok (f, chain')) :
    Settles (chain.inner.map Scope.names) [.literal f] chain.root.names chain'.root.names := by
  obtain ⟨g, hg, hbind, -⟩ := readFragment_of_parse h
  have hsettles := settles_bindFunction (chain.inner.map Scope.names) g (unbound_of_readFragment hg)
    chain.root.names
  have hf : ((bindFunction (chain.inner.map Scope.names) g).run chain.root.names).1 = f :=
    congrArg Prod.fst hbind
  have hroot : ((bindFunction (chain.inner.map Scope.names) g).run chain.root.names).2 =
      chain'.root.names := congrArg (fun found => found.2.root.names) hbind
  rw [hf, hroot] at hsettles
  exact hsettles

/-- Lexical scope holds in a fragment that stands in the chain `chain`, where `chain'` is what the
    chain has become. -/
structure Lexical (f : Function) (params : List String) (chain chain' : Chain) : Prop where
  name : f.name = ""
  params : f.params = params
  /-- A function scope declares the parameters, and the variables of all `var` statements outside
      of nested function literals; each of them once. -/
  declares : ∀ g scopes, Within (chain.inner.map Scope.names) (.literal f) (.literal g) scopes →
    g.names.Nodup ∧ ∀ x, x ∈ g.names ↔ x ∈ g.params ∨ g.body.Declares x
  /-- The scope of a function literal stands in that of the function which directly contains it. -/
  parent : ∀ g scopes, Within (chain.inner.map Scope.names) (.literal f) (.literal g) scopes →
    (g = f ∧ scopes = chain.inner.map Scope.names) ∨
      ∃ h outer, Within (chain.inner.map Scope.names) (.literal f) (.literal h) outer ∧
        .literal g ∈ h.body.items ∧ scopes = h.names :: outer
  /-- An unqualified script name denotes the declaration of the nearest scope that has one. -/
  nearest : ∀ m scopes, Within (chain.inner.map Scope.names) (.literal f) (.mention m) scopes →
    m.IsLexical → ∃ n, m.level = some n ∧ Nearest (scopes ++ [chain'.root.names]) m.ident n
  /-- Properties and member references denote no declaration. -/
  other : ∀ m scopes, Within (chain.inner.map Scope.names) (.literal f) (.mention m) scopes →
    ¬ m.IsLexical → m.level = none
  inner : chain'.inner = chain.inner
  desc : chain'.root.desc = chain.root.desc
  kept : chain.root.names <+: chain'.root.names
  /-- The root has got the names that no scope around them declares, and no others. -/
  root : ∀ x, x ∈ chain'.root.names ↔ x ∈ chain.root.names ∨
    ∃ m scopes, Within (chain.inner.map Scope.names) (.literal f) (.mention m) scopes ∧
      m.LeftToRoot scopes ∧ m.ident = x

/-- The names of every accepted fragment are resolved by lexical scope. -/
theorem parse_lexical {source : String} {params : List String} {chain chain' : Chain} {f : Function}
    (h : parse source params chain = .ok (f, chain')) : Lexical f params chain chain' := by
  obtain ⟨g, hg, hbind, hunbound⟩ := readFragment_of_parse h
  have hraw : g.unbound = g := unbound_of_readFragment hg
  obtain ⟨tokens, stop, ss, -, -, hread⟩ := readFragment_derives hg
  have hsettles := settles_bindFunction (chain.inner.map Scope.names) g hraw chain.root.names
  have hf : ((bindFunction (chain.inner.map Scope.names) g).run chain.root.names).1 = f :=
    congrArg Prod.fst hbind
  have hchain : chain' = { chain with root := { chain.root with
      names := ((bindFunction (chain.inner.map Scope.names) g).run chain.root.names).2 } } :=
    (congrArg Prod.snd hbind).symm
  rw [hf] at hsettles
  have hself := List.mem_singleton_self (Item.literal f)
  have hroot : ∀ x, x ∈ chain'.root.names ↔ x ∈ chain.root.names ∨
      ∃ m scopes, Within (chain.inner.map Scope.names) (.literal f) (.mention m) scopes ∧
        m.LeftToRoot scopes ∧ m.ident = x := by
    intro x
    rw [hchain, hsettles.root x]
    simp only [List.mem_singleton, exists_eq_left]
  exact
    { name := by rw [← hf, hread]; rfl
      params := by rw [← hf, hread]; rfl
      declares := by
        intro g scopes hwithin
        have hdeclaring := hsettles.declaring _ hself g scopes hwithin
        exact ⟨hdeclaring.nodup, hdeclaring.mem_names⟩
      parent := by
        intro g scopes hwithin
        exact hwithin.parent.imp_left fun hsame => ⟨(Item.literal.inj hsame.1).symm, hsame.2⟩
      nearest := by
        intro m scopes hwithin hlexical
        refine ⟨_, (hsettles.resolved _ hself m scopes hwithin).lexical hlexical, ?_⟩
        apply nearest_levelOf
        intro hfree
        exact (hroot m.ident).mpr (.inr ⟨m, scopes, hwithin, ⟨hlexical, hfree⟩, rfl⟩)
      other := fun m scopes hwithin => (hsettles.resolved _ hself m scopes hwithin).other
      inner := by rw [hchain]
      desc := by rw [hchain]
      kept := by rw [hchain]; exact hsettles.kept
      root := hroot }

/-- Hoisting, shadowing, a repeated parameter and names that are left to the root. -/
theorem parse_lexical_example :
    let source := "f(x); if (p) \x7b var x = g; \x7d q = function g(p, p) \x7b g(p, y.x); var y; \x7d"
    let chain : Chain := ⟨[⟨"outer", ["q"]⟩], ⟨"root", ["f"]⟩⟩
    ∃ f chain', parse source ["p"] chain = .ok (f, chain') ∧ chain'.root.names = ["f", "g"] ∧
      Lexical f ["p"] chain chain' := by
  intro source chain
  have hroot : (parse source ["p"] chain).toOption.map (·.2.root.names) = some ["f", "g"] := by
    decide +kernel
  cases hparse : parse source ["p"] chain with
  | error => rw [hparse] at hroot; cases hroot
  | ok found =>
    rw [hparse] at hroot
    exact ⟨found.1, found.2, rfl, Option.some.inj hroot, parse_lexical hparse⟩

end DefaultLowering.Fragment
