import DefaultLowering.Proofs.Renaming
import DefaultLowering.Proofs.Twinning
import Mathlib.Logic.Relation

/-!
# The steps of lowering

Everything that lowering does to a program is one of four steps:

- `Step.twin`: a default method gets its twin;
- `Step.forwarder`: a class gets a forwarder;
- `Step.code`: the calls of a typed body are turned over to twins;
- `Step.fragment`: the linkage of a fragment is turned over, and the fragment is renamed.

What a part of a run may do with them is said by a `Permit`: which default methods get twins, whether
forwarders are added, whether bodies are turned over, and under which identifiers twins are linked.

A body may be walked while its method gets a twin, but because turnover and relocation can be
exchanged, the walk has the effect of some `twin` steps followed by one `code` or `fragment` step on
the body as it is stored at the end.

Every step keeps a program coherent and extends it (`Steps.coherent`, `Steps.extends`), and a method
that uses no default method stays so (`Steps.clean`).
-/

namespace DefaultLowering.Program

variable {d target m k : MethodRef} {refs : List Linkage} {r : Linkage} {p q : Program} {l : Permit}
  {result : TypeName} {pos : Pos} {t : TypeRef} {b : Body} {block : Block}

/-! ## Section 1: Linkage turned over -/

/-- The targets of linkage entries. -/
def linkTargets (refs : List Linkage) : List MethodRef := refs.filterMap (·.target)

theorem mem_linkTargets :
    d ∈ linkTargets refs ↔ ∃ r ∈ refs, r.target = some d := by
  simp [linkTargets]

/-- The default method that a linkage entry targets. -/
def linkedDefault (p : Program) (r : Linkage) : Option MethodRef := r.target.filter p.isDefault

theorem linkedDefault_eq_some :
    p.linkedDefault r = some d ↔ r.target = some d ∧ p.isDefault d = true := by
  simp [linkedDefault, Option.filter_eq_some_iff]

theorem linkedDefault_eq_none :
    p.linkedDefault r = none ↔ ∀ d, r.target = some d → p.isDefault d = false := by
  simp [linkedDefault, Option.filter_eq_none_iff]

/-- A linkage entry of a default method turned over to the twin, under the identifier that `name`
    gives it. -/
def relink (p : Program) (name : MethodRef → String) (r : Linkage) : Linkage :=
  match p.linkedDefault r with
  | some d => { r with ident := name d, target := p.staticOf? d }
  | none => r

/-- The new identifiers by the old ones. -/
def linkRenames (p : Program) (name : MethodRef → String) (refs : List Linkage) :
    Renames :=
  refs.filterMap fun r => (p.linkedDefault r).map fun d => (r.ident, name d)

section

variable {p : Program} {name : MethodRef → String} {refs : List Linkage}

theorem lookup_linkRenames {old new : String}
    (h : (p.linkRenames name refs).lookup old = some new) :
    ∃ r ∈ refs, ∃ d, p.linkedDefault r = some d ∧ r.ident = old ∧ name d = new := by
  obtain ⟨xs, ys, hlist, -⟩ := List.lookup_eq_some_iff.mp h
  have hmem : (old, new) ∈ p.linkRenames name refs := by
    rw [hlist]
    simp
  obtain ⟨r, hr, hrename⟩ := List.mem_filterMap.mp hmem
  obtain ⟨d, hd, hpair⟩ := Option.map_eq_some_iff.mp hrename
  cases hpair
  exact ⟨r, hr, d, hd, rfl, rfl⟩

/-- An identifier that is not renamed belongs to no default method. -/
theorem linkedDefault_of_lookup (hr : r ∈ refs)
    (h : (p.linkRenames name refs).lookup r.ident = none) : p.linkedDefault r = none := by
  cases hd : p.linkedDefault r with
  | none => rfl
  | some d =>
    have hmem : (r.ident, name d) ∈ p.linkRenames name refs :=
      List.mem_filterMap.mpr ⟨r, hr, by rw [hd]; rfl⟩
    have hne := List.lookup_eq_none_iff.mp h _ hmem
    simp at hne

/-- Nothing is renamed exactly if no default method is linked. -/
theorem linkRenames_eq_nil :
    p.linkRenames name refs = [] ↔ ∀ d ∈ linkTargets refs, p.isDefault d = false := by
  rw [linkRenames, List.filterMap_eq_nil_iff]
  constructor
  · intro h d hd
    obtain ⟨r, hr, htarget⟩ := mem_linkTargets.mp hd
    exact linkedDefault_eq_none.mp (Option.map_eq_none_iff.mp (h r hr)) d htarget
  · intro h r hr
    rw [Option.map_eq_none_iff, linkedDefault_eq_none]
    exact fun d htarget => h d (mem_linkTargets.mpr ⟨r, hr, htarget⟩)

/-- Then no entry is turned over either. -/
theorem map_relink_of_clean (h : ∀ d ∈ linkTargets refs, p.isDefault d = false) :
    refs.map (p.relink name) = refs := by
  rw [List.map_congr_left (g := id), List.map_id]
  intro r hr
  have hnone : p.linkedDefault r = none :=
    linkedDefault_eq_none.mpr fun d htarget => h d (mem_linkTargets.mpr ⟨r, hr, htarget⟩)
  simp only [relink, hnone, id]

theorem linkRenames_congr {name' : MethodRef → String} (hdefault : q.isDefault = p.isDefault)
    (hname : ∀ d ∈ linkTargets refs, p.isDefault d = true → name' d = name d) :
    q.linkRenames name' refs = p.linkRenames name refs := by
  refine List.filterMap_congr fun r hr => ?_
  have hlinked : q.linkedDefault r = p.linkedDefault r := by rw [linkedDefault, hdefault]; rfl
  rw [hlinked]
  cases hd : p.linkedDefault r with
  | none => rfl
  | some d =>
    obtain ⟨htarget, hisDefault⟩ := linkedDefault_eq_some.mp hd
    rw [Option.map_some, Option.map_some, hname d (mem_linkTargets.mpr ⟨r, hr, htarget⟩) hisDefault]

theorem relink_congr {name' : MethodRef → String} (hdefault : q.isDefault = p.isDefault)
    (hname : ∀ d ∈ linkTargets refs, p.isDefault d = true → name' d = name d)
    (hstatic : ∀ d ∈ linkTargets refs, p.isDefault d = true → q.staticOf? d = p.staticOf? d) :
    refs.map (q.relink name') = refs.map (p.relink name) := by
  refine List.map_congr_left fun r hr => ?_
  have hlinked : q.linkedDefault r = p.linkedDefault r := by rw [linkedDefault, hdefault]; rfl
  unfold relink
  rw [hlinked]
  cases hd : p.linkedDefault r with
  | none => rfl
  | some d =>
    obtain ⟨htarget, hisDefault⟩ := linkedDefault_eq_some.mp hd
    have hmem : d ∈ linkTargets refs := mem_linkTargets.mpr ⟨r, hr, htarget⟩
    simp only [hname d hmem hisDefault, hstatic d hmem hisDefault]

end

/-- An identifier under which a method may be known: one that was remembered for its key from the
    beginning, or the identifier of some method with this key. -/
def Names (base : NameCache) (p : Program) (m : MethodRef) (ident : String) : Prop :=
  base.idents.lookup (p.key m) = some ident ∨
    ∃ k, k.index < p.methods.length ∧ p.key k = p.key m ∧ ident = "@" ++ p.memberText k

/-! ## Section 2: Steps -/

/-- The program with a new body of one method, and with the names that its fragments share. -/
def withBody (p : Program) (m : MethodRef) (b : Body) (globals : List String) : Program :=
  { p with globals := globals }.setBody m (some b)

/-- What the steps of a part of a run may do. -/
structure Permit where
  /-- The default methods that may get a twin. -/
  twins : MethodRef → Prop
  /-- Classes may get forwarders. -/
  forwarders : Prop
  /-- Bodies may be turned over. -/
  bodies : Prop
  /-- The identifiers under which a twin may be linked. -/
  names : Program → MethodRef → String → Prop

/-- Everything may be done, with the identifiers that come from a cache. -/
def Permit.any (base : NameCache) : Permit := ⟨fun _ => True, True, True, Names base⟩

/-- What the first permit allows is allowed by the second. -/
structure Permit.Within (l l' : Permit) : Prop where
  twins : ∀ d, l.twins d → l'.twins d
  forwarders : l.forwarders → l'.forwarders
  bodies : l.bodies → l'.bodies
  names : ∀ p m ident, l.names p m ident → l'.names p m ident

theorem Permit.within_any {base : NameCache}
    (h : ∀ p m ident, l.names p m ident → Names base p m ident) : l.Within (.any base) :=
  ⟨fun _ _ => trivial, fun _ => trivial, fun _ => trivial, h⟩

/-- One step of lowering. -/
inductive Step (permit : Permit) (p : Program) : Program → Prop where
  | twin (d : MethodRef) (hd : p.isDefault d = true) (hnone : p.staticOf? d = none)
    (hpermit : permit.twins d) :
    Step permit p (p.withTwin d)
  | forwarder (d twin : MethodRef) (t : TypeRef) (hd : p.isDefault d = true)
    (htwin : p.staticOf? d = some twin) (ht : t ∈ p.declared)
    (hclass : (p.type t).isInterface = false)
    (hown : p.ownMethod? t (p.method d).signature = none) (hpermit : permit.forwarders) :
    Step permit p (p.withMethod t (Forwarding.forwarderFor p t d twin p.next))
  | code (m : MethodRef) (pos : Pos) (block : Block)
    (hbody : (p.method m).body = some (.code pos (some block)))
    (hserved : p.Served (targetsOfStmts block.stmts)) (hpermit : permit.bodies) :
    Step permit p (p.withBody m
      (.code pos (some ⟨block.pos, p.turnover.stmts (p.home m) block.stmts⟩)) p.globals)
  | fragment (m : MethodRef) (pos : Pos) (f : Fragment.Function) (refs : List Linkage)
    (name : MethodRef → String)
    (hbody : (p.method m).body = some (.native pos (some f) refs))
    (hserved : p.Served (linkTargets refs))
    (hname : ∀ d ∈ linkTargets refs, p.isDefault d = true → ∀ t, p.staticOf? d = some t →
      permit.names p t (name d))
    (hlinked : p.linkRenames name refs ≠ []) (hsafe : f.Safe (p.linkRenames name refs))
    (hpermit : permit.bodies) :
    Step permit p (p.withBody m
      (.native pos (some (f.renamed (p.linkRenames name refs) 0))
        (distinctLinkage (refs.map (p.relink name))))
      (f.globalsRenamed (p.linkRenames name refs) p.globals))

/-- Some steps of lowering. -/
def Steps (permit : Permit) : Program → Program → Prop := Relation.ReflTransGen (Step permit)

theorem Step.mono {l' : Permit} (hl : l.Within l') (h : Step l p q) :
    Step l' p q := by
  cases h with
  | twin d hd hnone hpermit => exact .twin d hd hnone (hl.twins d hpermit)
  | forwarder d twin t hd htwin ht hclass hown hpermit =>
    exact .forwarder d twin t hd htwin ht hclass hown (hl.forwarders hpermit)
  | code m pos block hbody hserved hpermit =>
    exact .code m pos block hbody hserved (hl.bodies hpermit)
  | fragment m pos f refs name hbody hserved hname hlinked hsafe hpermit =>
    refine .fragment m pos f refs name hbody hserved ?_ hlinked hsafe (hl.bodies hpermit)
    exact fun d hd hdefault t ht => hl.names p t _ (hname d hd hdefault t ht)

theorem Steps.mono {l' : Permit} (hl : l.Within l') (h : Steps l p q) :
    Steps l' p q :=
  Relation.ReflTransGen.mono (fun _ _ hstep => Step.mono hl hstep) _ _ h

/-! ## Section 3: What a body uses -/

/-- The methods that a body calls or is linked to. -/
def Body.targets : Body → List MethodRef
  | .code _ none => []
  | .code _ (some block) => targetsOfStmts block.stmts
  | .native _ _ refs => linkTargets refs

/-- The method uses `d`. -/
def UsedIn (p : Program) (m d : MethodRef) : Prop :=
  ∃ b, (p.method m).body = some b ∧ d ∈ b.targets

/-- Some method uses `d`. -/
def Uses (p : Program) (d : MethodRef) : Prop := ∃ m, p.UsedIn m d

/-- The body of the method uses no default method. -/
def Clean (p : Program) (m : MethodRef) : Prop :=
  ∀ b, (p.method m).body = some b → ∀ d ∈ b.targets, p.isDefault d = false

theorem Relocation.targets_body (r : Relocation) (b : Body) : (r.body b).targets = b.targets := by
  rcases b with ⟨pos, _ | block⟩ | ⟨pos, func, refs⟩
  · rfl
  · exact r.targets_stmts block.stmts
  · rfl

theorem targets_passingOn {args : List Expr} :
    (passingOn pos result target args).targets = target :: targetsOf args := by
  by_cases hvoid : result.isVoid = true <;>
    simp [passingOn, Body.targets, hvoid, targetsOfStmts, Stmt.targets, Expr.targets]

theorem targetsOf_paramRefs (pos : Pos) (m : MethodRef) (n : Nat) :
    targetsOf (paramRefs pos m n) = [] := by
  simp [targetsOf_eq_flatMap, paramRefs, Expr.targets]

/-- To pass everything on is to use one method. -/
theorem targets_passingOn_params {n : Nat} :
    (passingOn pos result target (.this pos t :: paramRefs pos m n)).targets =
      [target] := by
  rw [targets_passingOn, targetsOf, targetsOf_paramRefs]
  rfl

theorem targets_delegatingBody (m : MethodRef) (x : Method) (t : TypeRef) (twin : MethodRef) :
    (delegatingBody m x t twin).targets = [twin] :=
  targets_passingOn_params

/-- A body that only passes its parameters on to a method that is no default method. -/
theorem placed_passingOn {isDefault : MethodRef → Bool} {pos' : Pos} {n : Nat} {b : Block}
    (htarget : isDefault target = false)
    (hb : passingOn pos result target (.this pos t :: paramRefs pos m n) = .code pos' (some b)) :
    StmtsPlaced isDefault b.stmts := by
  have hargs : PlacedAll isDefault (.this pos t :: paramRefs pos m n) := by
    rw [placedAll_iff]
    intro x hx
    rcases List.mem_cons.mp hx with rfl | hx
    · trivial
    · obtain ⟨i, -, rfl⟩ := List.mem_map.mp hx
      trivial
  have hcall : (Expr.call pos .absent target (.this pos t :: paramRefs pos m n)).Placed
      isDefault := by
    refine ⟨?_, trivial, hargs⟩
    intro ht
    rw [htarget] at ht
    cases ht
  unfold passingOn at hb
  cases hb
  split
  · exact ⟨hcall, trivial⟩
  · exact ⟨hcall, trivial⟩

/-! ## Section 4: A changed body -/

section body

variable {p : Program} {globals : List String} {m : MethodRef} {b b' : Body}

theorem method_withBody_self (h : m.index < p.methods.length) :
    (p.withBody m b' globals).method m = { p.method m with body := some b' } :=
  method_setBody_self (p := { p with globals := globals }) _ h

theorem method_withBody_ne (h : k ≠ m) :
    (p.withBody m b' globals).method k = p.method k :=
  method_setBody_ne (p := { p with globals := globals }) _ h

/-- Where a body comes from when one has been changed. -/
theorem body_withBody_cases {c : Body} (hbody : (p.method m).body = some b)
    (hk : ((p.withBody m b' globals).method k).body = some c) :
    (k = m ∧ b' = c) ∨ (p.method k).body = some c := by
  by_cases hkm : k = m
  · rw [hkm, method_withBody_self (lt_of_body hbody)] at hk
    exact .inl ⟨hkm, Option.some.inj hk⟩
  · rw [method_withBody_ne hkm] at hk
    exact .inr hk

theorem sameHead_withBody (k : MethodRef) :
    SameHead (p.method k) ((p.withBody m b' globals).method k) := by
  obtain ⟨c, hc⟩ := method_setBody (p := { p with globals := globals }) m k (some b')
  unfold withBody
  rw [hc]
  rfl

theorem length_methods_withBody :
    (p.withBody m b' globals).methods.length = p.methods.length :=
  length_methods_setBody (p := { p with globals := globals }) m _

theorem statics_withBody : (p.withBody m b' globals).statics = p.statics ++ [] :=
  (List.append_nil _).symm

theorem withBody_eq_self (hbody : (p.method m).body = some b) : p.withBody m b p.globals = p :=
  setBody_eq_self hbody

theorem Wired.withBody (hp : p.Wired) : (p.withBody m b' globals).Wired :=
  Wired.of_bodies (p := p) rfl rfl length_methods_withBody rfl statics_withBody
    sameHead_withBody hp (by simp)

theorem Extends.withBody (hbody : (p.method m).body = some b)
    (husable : b'.isUsable = b.isUsable) : p.Extends (p.withBody m b' globals) := by
  refine Extends.of_bodies rfl rfl length_methods_withBody rfl statics_withBody sameHead_withBody
    fun k => ?_
  by_cases hk : k = m
  · rw [hk, method_withBody_self (lt_of_body hbody), hbody]
    exact husable
  · rw [method_withBody_ne hk]

theorem staticOf_withBody (hbody : (p.method m).body = some b) (husable : b'.isUsable = b.isUsable)
    (hd : p.isDefault d = true) :
    (p.withBody m b' globals).staticOf? d = p.staticOf? d := by
  have hkey : (p.withBody m b' globals).key d = p.key d :=
    (Extends.withBody hbody husable).key (lt_of_isDefault hd)
  unfold staticOf?
  rw [hkey]
  rfl

/-- A pair of default method and twin stays one while the default method is not touched. -/
theorem IsTwin.extends {t : MethodRef} (h : p.IsTwin d t) (hext : p.Extends q)
    (hlt : d.index < p.methods.length) (hsame : q.method d = p.method d) : q.IsTwin d t := by
  have htwin := hext.method t h.lt
  refine ⟨Nat.lt_of_lt_of_le h.lt hext.length_methods, ?_, ?_, ?_, ?_, ?_, ?_⟩
  · rw [htwin]
    exact h.static
  · rw [htwin, hsame]
    exact h.name
  · rw [htwin, hsame]
    exact h.enclosing
  · rw [htwin, hsame, hext.enclosingName hlt]
    exact h.params
  · rw [hsame, hext.home hlt]
    exact h.delegates
  · rw [hsame]
    exact h.native

/-- A body may be changed unless the method passes everything on to its twin. -/
theorem Coherent.withBody (hp : p.Coherent) (hbody : (p.method m).body = some b)
    (husable : b'.isUsable = b.isUsable)
    (hfree : p.isDefault m = true → p.staticOf? m = none)
    (hplaced : ∀ pos block, b' = .code pos (some block) → StmtsPlaced p.isDefault block.stmts)
    (hfragment : ∀ pos func refs, b' = .native pos func refs → func.isSome = true) :
    (p.withBody m b' globals).Coherent := by
  have hext : p.Extends (p.withBody m b' globals) := .withBody hbody husable
  refine ⟨hp.toWired.withBody, hext.key_inj hp, ?_, ?_, ?_, ?_⟩
  · rw [hext.isDefault]
    intro d t hd ht
    rw [staticOf_withBody hbody husable hd] at ht
    -- a method with a twin delegates, so it is not the one whose body changes
    have hne : d ≠ m := by
      rintro rfl
      rw [hfree hd] at ht
      cases ht
    exact (hp.twin d t hd ht).extends hext (lt_of_isDefault hd) (method_withBody_ne hne)
  · rw [hext.isDefault]
    intro d d' t hd hd' ht ht'
    rw [staticOf_withBody hbody husable hd] at ht
    rw [staticOf_withBody hbody husable hd'] at ht'
    exact hp.twin_inj d d' t hd hd' ht ht'
  · rw [hext.isDefault]
    intro k pos block hk
    rcases body_withBody_cases hbody hk with ⟨-, hb⟩ | hsame
    · exact hplaced pos block hb
    · exact hp.placed k pos block hsame
  · intro k pos func refs hk
    rcases body_withBody_cases hbody hk with ⟨-, hb⟩ | hsame
    · exact hfragment pos func refs hb
    · exact hp.fragment k pos func refs hsame

end body

/-! ## Section 5: A new twin -/

section twin

variable {p : Program} {d : MethodRef}

theorem isTwin_withTwin (hp : p.Wired) (hd : p.isDefault d = true) :
    (p.withTwin d).IsTwin d p.next := by
  have hlt := lt_of_isDefault hd
  have hext : p.Extends (p.withTwin d) := .withTwin hp hd
  have hself := method_withTwin_self (p := p) hlt
  have hnext := method_withTwin_next hp hlt
  refine ⟨?_, ?_, ?_, ?_, ?_, ?_, ?_⟩
  · rw [length_methods_withTwin]
    exact Nat.lt_succ_self _
  · rw [hnext]
    rfl
  · rw [hnext, hself]
    rfl
  · rw [hnext, hself]
    exact (enclosing_of_isDefault hd).symm
  · rw [hnext, hself, hext.enclosingName hlt]
    rfl
  · rw [hself, hext.home hlt]
    rfl
  · rw [hself]
    rfl

/-- Where a body comes from when a method has got a twin. -/
theorem body_withTwin_cases (hp : p.Wired) (hlt : d.index < p.methods.length)
    (hk : ((p.withTwin d).method k).body = some b) :
    (k = d ∧ b = delegatingBody d (p.method d) (p.home d) p.next) ∨
      (k = p.next ∧ ∃ b', (p.method d).body = some b' ∧ b = Relocation.body ⟨d, p.next⟩ b') ∨
      (p.method k).body = some b := by
  by_cases hkd : k = d
  · rw [hkd, method_withTwin_self hlt] at hk
    exact .inl ⟨hkd, (Option.some.inj hk).symm⟩
  · by_cases hkn : k = p.next
    · rw [hkn, method_withTwin_next hp hlt] at hk
      obtain ⟨b', hb', hmoved⟩ := Option.map_eq_some_iff.mp hk
      exact .inr (.inl ⟨hkn, b', hb', hmoved.symm⟩)
    · rw [method_withTwin_other hkd hkn] at hk
      exact .inr (.inr hk)

/-- Where a fragment comes from when a method has got a twin: what delegates is no fragment. -/
theorem fragment_withTwin_cases (hp : p.Wired) (hd : p.isDefault d = true) {pos : Pos}
    {g : Fragment.Function} {refs : List Linkage}
    (hk : ((p.withTwin d).method k).body = some (.native pos (some g) refs)) :
    (k = p.next ∧ ∃ f, (p.method d).body = some (.native pos (some f) refs) ∧ g = f.withReceiver) ∨
      (p.method k).body = some (.native pos (some g) refs) := by
  rcases body_withTwin_cases hp (lt_of_isDefault hd) hk with ⟨-, hb⟩ | ⟨hkn, b, hold, hb⟩ | hsame
  · cases hb
  · rcases b with ⟨pos', block⟩ | ⟨pos', _ | f, refs'⟩
    · cases hb
    · cases hb
    · cases hb
      exact .inl ⟨hkn, f, hold, rfl⟩
  · exact .inr hsame

theorem Coherent.withTwin (hp : p.Coherent) (hd : p.isDefault d = true)
    (hnone : p.staticOf? d = none) : (p.withTwin d).Coherent := by
  have hlt := lt_of_isDefault hd
  have hext : p.Extends (p.withTwin d) := .withTwin hp.toWired hd
  refine ⟨hp.toWired.withTwin hd, hext.key_inj hp, ?_, ?_, ?_, ?_⟩
  · rw [hext.isDefault]
    intro k t hk ht
    rw [staticOf_withTwin hp hd hnone hk] at ht
    by_cases hkd : k = d
    · rw [if_pos hkd, Option.some.injEq] at ht
      rw [hkd, ← ht]
      exact isTwin_withTwin hp.toWired hd
    · rw [if_neg hkd] at ht
      exact (hp.twin k t hk ht).extends hext (lt_of_isDefault hk)
        (method_withTwin_other hkd (ne_next_of_lt (lt_of_isDefault hk)))
  · rw [hext.isDefault]
    intro k k' t hk hk' ht ht'
    rw [staticOf_withTwin hp hd hnone hk] at ht
    rw [staticOf_withTwin hp hd hnone hk'] at ht'
    -- the new twin is no twin of another method, for it was not there before
    have hfresh : ∀ j, p.isDefault j = true → p.staticOf? j ≠ some p.next :=
      fun j hj hstatic => Nat.lt_irrefl _ (hp.twin j p.next hj hstatic).lt
    by_cases hkd : k = d <;> by_cases hkd' : k' = d
    · rw [hkd, hkd']
    · rw [if_pos hkd] at ht
      rw [if_neg hkd', ← ht] at ht'
      exact absurd ht' (hfresh k' hk')
    · rw [if_pos hkd'] at ht'
      rw [if_neg hkd, ← ht'] at ht
      exact absurd ht (hfresh k hk)
    · rw [if_neg hkd] at ht
      rw [if_neg hkd'] at ht'
      exact hp.twin_inj k k' t hk hk' ht ht'
  · rw [hext.isDefault]
    intro k pos block hk
    rcases body_withTwin_cases hp.toWired hlt hk with ⟨-, hb⟩ | ⟨-, b', hb', hb⟩ | hb
    · exact placed_passingOn (isDefault_of_le (Nat.le_refl _)) hb.symm
    · rcases b' with ⟨pos', _ | block'⟩ | ⟨pos', func, refs⟩
      · cases hb
      · cases hb
        exact Relocation.placed_stmts _ (hp.placed d pos block' hb')
      · cases hb
    · exact hp.placed k pos block hb
  · intro k pos func refs hk
    rcases body_withTwin_cases hp.toWired hlt hk with ⟨-, hb⟩ | ⟨-, b', hb', hb⟩ | hb
    · cases hb
    · rcases b' with ⟨pos', block'⟩ | ⟨pos', func', refs'⟩
      · cases hb
      · cases hb
        rw [Option.isSome_map]
        exact hp.fragment d pos func' refs hb'
    · exact hp.fragment k pos func refs hb

end twin

/-! ## Section 6: A new forwarder -/

/-- A new method is no static implementation until it is recorded as one. -/
theorem staticOf_withMethod (hp : p.Wired) {x : Method} (hx : x.id = none)
    (hext : p.Extends (p.withMethod t x)) (hk : p.isDefault k = true) :
    (p.withMethod t x).staticOf? k = p.staticOf? k := by
  cases hold : p.staticOf? k with
  | some impl => exact hext.staticOf k impl hk hold
  | none =>
    unfold staticOf?
    rw [hext.key (lt_of_isDefault hk), statics_withMethod hx, hp.lookup_statics hold]
    rfl

theorem signature_forwarderFor (p : Program) (t : TypeRef) (d twin own : MethodRef) :
    (Forwarding.forwarderFor p t d twin own).signature = (p.method d).signature := by
  simp only [Method.signature, Forwarding.forwarderFor, List.map_map]
  rfl

theorem Coherent.withForwarder (hp : p.Coherent) {twin : MethodRef} (hd : p.isDefault d = true)
    (htwin : p.staticOf? d = some twin) (ht : t ∈ p.declared)
    (hclass : (p.type t).isInterface = false) :
    (p.withMethod t (Forwarding.forwarderFor p t d twin p.next)).Coherent := by
  have hx : (Forwarding.forwarderFor p t d twin p.next).id = none := rfl
  have hext : p.Extends (p.withMethod t (Forwarding.forwarderFor p t d twin p.next)) :=
    .withMethod hp.toWired ht hx (.inr hclass)
  have hstaticOf : ∀ k, p.isDefault k = true →
      (p.withMethod t (Forwarding.forwarderFor p t d twin p.next)).staticOf? k = p.staticOf? k :=
    fun k hk => staticOf_withMethod hp.toWired hx hext hk
  refine ⟨hp.toWired.withMethod ht hx, hext.key_inj hp, ?_, ?_, ?_, ?_⟩
  · rw [hext.isDefault]
    intro k impl hk himpl
    rw [hstaticOf k hk] at himpl
    exact (hp.twin k impl hk himpl).extends hext (lt_of_isDefault hk)
      (method_withMethod_ne hx (ne_next_of_lt (lt_of_isDefault hk)))
  · rw [hext.isDefault]
    intro k k' impl hk hk' himpl himpl'
    rw [hstaticOf k hk] at himpl
    rw [hstaticOf k' hk'] at himpl'
    exact hp.twin_inj k k' impl hk hk' himpl himpl'
  · rw [hext.isDefault]
    intro k pos block hk
    rcases body_withMethod_cases hx hk with ⟨-, hb⟩ | hsame
    · exact placed_passingOn (hp.twin_not_default hd htwin) (Option.some.inj hb)
    · exact hp.placed k pos block hsame
  · intro k pos func refs hk
    rcases body_withMethod_cases hx hk with ⟨-, hb⟩ | hsame
    · cases hb
    · exact hp.fragment k pos func refs hsame

/-! ## Section 7: Turned over bodies -/

section turned

variable {p : Program} (hp : p.Coherent)

include hp

/-- Twins are no default methods, so that nothing is turned over twice. -/
theorem Coherent.turnover_twin {targets : List MethodRef} (hserved : p.Served targets) :
    ∀ d ∈ targets, p.turnover.isDefault d = true →
      p.turnover.isDefault (p.turnover.twin d) = false := by
  intro d hd hdefault
  obtain ⟨t, ht⟩ := Option.isSome_iff_exists.mp (hserved d hd hdefault)
  have htwin : p.turnover.twin d = t := by simp [turnover, ht]
  rw [htwin]
  exact hp.twin_not_default hdefault ht

/-- A default method with a twin has only the twin as a target. -/
theorem Coherent.targets_of_twin {t : MethodRef} (hm : p.isDefault m = true)
    (ht : p.staticOf? m = some t) (hbody : (p.method m).body = some b) : b.targets = [t] := by
  have hdelegates := (hp.twin m t hm ht).delegates
  rw [hbody] at hdelegates
  rw [Option.some.inj hdelegates]
  exact targets_delegatingBody ..

theorem Coherent.clean_of_twin {t : MethodRef} (hm : p.isDefault m = true)
    (ht : p.staticOf? m = some t) : p.Clean m := by
  intro b hbody d hd
  rw [hp.targets_of_twin hm ht hbody, List.mem_singleton] at hd
  rw [hd]
  exact hp.twin_not_default hm ht

theorem target_relink {name : MethodRef → String} (h : (p.relink name r).target = some d) :
    p.isDefault d = false := by
  cases hlinked : p.linkedDefault r with
  | some =>
    simp only [relink, hlinked] at h
    exact hp.twin_not_default (linkedDefault_eq_some.mp hlinked).2 h
  | none =>
    simp only [relink, hlinked] at h
    exact linkedDefault_eq_none.mp hlinked d h

end turned

/-- The entries that are left when repeated identifiers are dropped. -/
theorem mem_foldl_addLinkage {acc : List Linkage} (h : r ∈ refs.foldl addLinkage acc) :
    r ∈ acc ∨ r ∈ refs := by
  induction refs generalizing acc with
  | nil => exact .inl h
  | cons x xs ih =>
    rcases ih h with hmem | hmem
    · unfold addLinkage at hmem
      split at hmem
      · exact .inl hmem
      · rcases List.mem_append.mp hmem with hmem | hmem
        · exact .inl hmem
        · exact .inr (List.mem_cons.mpr (.inl (List.mem_singleton.mp hmem)))
    · exact .inr (List.mem_cons_of_mem _ hmem)

theorem mem_of_mem_distinctLinkage (h : r ∈ distinctLinkage refs) : r ∈ refs := by
  rcases mem_foldl_addLinkage h with hmem | hmem
  · cases hmem
  · exact hmem

theorem isUsable_turnover {o : Turnover} {self : TypeRef} :
    (Body.code pos (some ⟨block.pos, o.stmts self block.stmts⟩)).isUsable =
      (Body.code pos (some block)).isUsable := by
  simp [Body.isUsable, Turnover.stmts_eq_map]

/-! ## Section 8: What every step keeps -/

section step

variable {permit : Permit} {p q : Program}

/-- Turning over a body that uses no default method changes nothing. -/
theorem withBody_of_clean {self : TypeRef}
    (hbody : (p.method m).body = some (.code pos (some block))) (hclean : p.Clean m) :
    p.withBody m (.code pos (some ⟨block.pos, p.turnover.stmts self block.stmts⟩)) p.globals =
      p := by
  have hstmts : p.turnover.stmts self block.stmts = block.stmts :=
    Turnover.stmts_of_clean fun d hd => hclean _ hbody d hd
  rw [hstmts]
  exact withBody_eq_self hbody

theorem Step.extends (h : Step permit p q) (hp : p.Coherent) : p.Extends q := by
  cases h with
  | twin d hd => exact .withTwin hp.toWired hd
  | forwarder d twin t hd htwin ht hclass =>
    exact .withMethod hp.toWired ht rfl (.inr hclass)
  | code m pos block hbody => exact .withBody hbody isUsable_turnover
  | fragment m pos f refs name hbody =>
    exact .withBody hbody rfl

theorem Step.coherent (h : Step permit p q) (hp : p.Coherent) : q.Coherent := by
  cases h with
  | twin d hd hnone => exact hp.withTwin hd hnone
  | forwarder d twin t hd htwin ht hclass => exact hp.withForwarder hd htwin ht hclass
  | code m pos block hbody hserved =>
    by_cases htwin : p.isDefault m = true ∧ (p.staticOf? m).isSome = true
    · obtain ⟨t, ht⟩ := Option.isSome_iff_exists.mp htwin.2
      rw [withBody_of_clean hbody (hp.clean_of_twin htwin.1 ht)]
      exact hp
    · refine hp.withBody hbody isUsable_turnover ?_ ?_ ?_
      · intro hm
        cases hstatic : p.staticOf? m with
        | none => rfl
        | some => exact absurd ⟨hm, by rw [hstatic]; rfl⟩ htwin
      · intro pos' block' hcode
        cases hcode
        exact Turnover.placed_stmts (o := p.turnover) (hp.placed m pos block hbody)
          (hp.turnover_twin hserved)
      · intro pos' func refs hnative
        cases hnative
  | fragment m pos f refs name hbody =>
    refine hp.withBody hbody rfl ?_ ?_ ?_
    · intro hm
      cases hstatic : p.staticOf? m with
      | none => rfl
      | some t =>
        -- a method with a twin has a typed body
        have hdelegates := (hp.twin m t hm hstatic).delegates
        rw [hbody] at hdelegates
        cases hdelegates
    · intro pos' block hcode
      cases hcode
    · intro pos' func refs' hnative
      cases hnative
      rfl

/-- A method whose body was turned over uses no default method. -/
theorem clean_withBody {b' : Body} {globals : List String} (hbody : (p.method m).body = some b)
    (husable : b'.isUsable = b.isUsable) (htargets : ∀ d ∈ b'.targets, p.isDefault d = false) :
    (p.withBody m b' globals).Clean m := by
  intro c hc d hd
  rw [method_withBody_self (lt_of_body hbody)] at hc
  rw [(Extends.withBody hbody husable).isDefault]
  exact htargets d (Option.some.inj hc ▸ hd)

theorem clean_code (hp : p.Coherent) (hbody : (p.method m).body = some (.code pos (some block)))
    (hserved : p.Served (targetsOfStmts block.stmts)) :
    (p.withBody m (.code pos (some ⟨block.pos, p.turnover.stmts (p.home m) block.stmts⟩))
      p.globals).Clean m :=
  clean_withBody hbody isUsable_turnover (Turnover.clean_stmts (hp.turnover_twin hserved))

theorem clean_fragment (hp : p.Coherent) {f g : Fragment.Function} (name : MethodRef → String)
    (globals : List String) (hbody : (p.method m).body = some (.native pos (some f) refs)) :
    (p.withBody m (.native pos (some g) (distinctLinkage (refs.map (p.relink name)))) globals).Clean
      m := by
  refine clean_withBody hbody rfl fun d hd => ?_
  obtain ⟨r, hr, htarget⟩ := mem_linkTargets.mp hd
  obtain ⟨r', -, rfl⟩ := List.mem_map.mp (mem_of_mem_distinctLinkage hr)
  exact target_relink hp htarget

/-- The methods that use no default method stay so. -/
theorem Step.clean (h : Step permit p q) (hp : p.Coherent) (hlt : m.index < p.methods.length)
    (hclean : p.Clean m) : q.Clean m := by
  have hdefault := (h.extends hp).isDefault
  -- a method that is not touched is clean because default methods stay the same
  have hkept : q.method m = p.method m → q.Clean m := by
    intro hsame b hb d hd
    rw [hdefault]
    exact hclean b (hsame ▸ hb) d hd
  cases h with
  | twin d hd hnone =>
    by_cases hmd : m = d
    · subst hmd
      refine (hp.withTwin hd hnone).clean_of_twin (t := p.next) ?_ ?_
      · rw [hdefault]
        exact hd
      · rw [staticOf_withTwin hp hd hnone hd, if_pos rfl]
    · exact hkept (method_withTwin_other hmd (ne_next_of_lt hlt))
  | forwarder =>
    exact hkept (method_withMethod_ne rfl (ne_next_of_lt hlt))
  | code k pos block hbody hserved =>
    by_cases hmk : m = k
    · rw [hmk]
      exact clean_code hp hbody hserved
    · exact hkept (method_withBody_ne hmk)
  | fragment k pos f refs name hbody =>
    by_cases hmk : m = k
    · rw [hmk]
      exact clean_fragment hp name _ hbody
    · exact hkept (method_withBody_ne hmk)

/-- A property that every step from a coherent program keeps holds after a run. -/
theorem Steps.induct {P : Program → Prop} (h : Steps permit p q) (hp : p.Coherent) (hP : P p)
    (hstep : ∀ q r, Steps permit p q → q.Coherent → P q → Step permit q r → P r) :
    q.Coherent ∧ P q := by
  induction h with
  | refl => exact ⟨hp, hP⟩
  | tail hpq hqr ih => exact ⟨hqr.coherent ih.1, hstep _ _ hpq ih.1 ih.2 hqr⟩

theorem Steps.coherent (h : Steps permit p q) (hp : p.Coherent) : q.Coherent :=
  (h.induct (P := fun _ => True) hp trivial fun _ _ _ _ _ _ => trivial).1

theorem Steps.extends (h : Steps permit p q) (hp : p.Coherent) : p.Extends q :=
  (h.induct hp (.refl p) fun _ _ _ hq hext hstep => hext.trans (hstep.extends hq)).2

theorem Steps.clean (h : Steps permit p q) (hp : p.Coherent) (hlt : m.index < p.methods.length)
    (hclean : p.Clean m) : q.Clean m :=
  (h.induct hp hclean fun _ _ hpq hq hm hstep =>
    hstep.clean hq (Nat.lt_of_lt_of_le hlt (hpq.extends hp).length_methods) hm).2

end step

end DefaultLowering.Program
