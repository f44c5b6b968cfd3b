import DefaultLowering.Proofs.Steps
import Mathlib.Data.Finset.Card
import Mathlib.Order.Interval.Finset.Nat

/-!
# What steps add to a program

A run of steps adds twins and forwarders, and both only as far as its permit goes:

- `Steps.uses`: a default method that is used after some steps was used before;
- `Step.twinOf_cases`, `Steps.permitted`: only default methods that may get a twin get one;
- `Steps.created`: every new method is the twin of a default method, or a forwarder in a class;
- `Steps.added`: new methods stand behind the old ones;
- `Steps.length_methods_le`: so without forwarders, the number of methods at most doubles.  This is
  what bounds the walk over a program to which methods are added on the way.
-/

namespace DefaultLowering.Program

variable {permit : Permit} {p q : Program}

/-! ## Section 1: Uses -/

/-- No step makes a body use a default method that no body has used so far. -/
theorem Step.uses (h : Step permit p q) (hp : p.Coherent) {d : MethodRef}
    (hd : p.isDefault d = true) (hq : q.Uses d) : p.Uses d := by
  obtain ⟨k, b, hb, hmem⟩ := hq
  have hext := h.extends hp
  -- a body that has been turned over uses no default method at all
  have hturned : q.Clean k → p.Uses d := by
    intro hclean
    have hnot := hclean b hb d hmem
    rw [hext.isDefault, hd] at hnot
    cases hnot
  cases h with
  | twin d' hd' =>
    rcases body_withTwin_cases hp.toWired (lt_of_isDefault hd') hb with
      ⟨-, rfl⟩ | ⟨-, b', hb', rfl⟩ | hsame
    · rw [targets_delegatingBody, List.mem_singleton] at hmem
      have hnot : p.isDefault p.next = false := isDefault_of_le (Nat.le_refl _)
      rw [hmem, hnot] at hd
      cases hd
    · rw [Relocation.targets_body] at hmem
      exact ⟨d', b', hb', hmem⟩
    · exact ⟨k, b, hsame, hmem⟩
  | forwarder d' twin t hd' htwin =>
    rcases body_withMethod_cases rfl hb with ⟨-, hnew⟩ | hsame
    · cases hnew
      rw [targets_passingOn_params, List.mem_singleton] at hmem
      rw [hmem, hp.twin_not_default hd' htwin] at hd
      cases hd
    · exact ⟨k, b, hsame, hmem⟩
  | code m pos block hbody hserved =>
    rcases body_withBody_cases hbody hb with ⟨rfl, -⟩ | hsame
    · exact hturned (clean_code hp hbody hserved)
    · exact ⟨k, b, hsame, hmem⟩
  | fragment m pos f refs name hbody =>
    rcases body_withBody_cases hbody hb with ⟨rfl, -⟩ | hsame
    · exact hturned (clean_fragment hp name _ hbody)
    · exact ⟨k, b, hsame, hmem⟩

theorem Steps.uses (h : Steps permit p q) (hp : p.Coherent) {d : MethodRef}
    (hd : p.isDefault d = true) (hq : q.Uses d) : p.Uses d := by
  refine (h.induct (P := fun q => q.Uses d → p.Uses d) hp id ?_).2 hq
  intro q r hsteps hcoherent ih hstep hr
  refine ih (hstep.uses hcoherent ?_ hr)
  rw [(hsteps.extends hp).isDefault]
  exact hd

/-! ## Section 2: Twins of methods -/

/-- The twin of a method, which only default methods have. -/
def twinOf? (p : Program) (m : MethodRef) : Option MethodRef :=
  if p.isDefault m then p.staticOf? m else none

/-- The body that passes the receiver and all parameters on to the twin, and returns what comes back
    unless the result is void. -/
def delegation (d : MethodRef) (x : Method) (self : TypeRef) (twin : MethodRef) : Body :=
  let call := Expr.call x.pos .absent twin
    (.this x.pos self :: (List.range x.params.length).map fun i => .param x.pos ⟨d, i⟩)
  .code x.pos (some ⟨x.pos, [if x.result.isVoid then .expr x.pos call else .ret x.pos call]⟩)

section

variable {m t : MethodRef}

theorem twinOf_eq_some : p.twinOf? m = some t ↔ p.isDefault m = true ∧ p.staticOf? m = some t := by
  unfold twinOf?
  by_cases hm : p.isDefault m = true <;> simp [hm]

theorem twinOf_of_statics (h : p.statics = []) : p.twinOf? m = none := by
  unfold twinOf?
  rw [staticOf_of_statics h, ite_self]

theorem twinOf_congr (hdefault : q.isDefault = p.isDefault)
    (hstatic : p.isDefault m = true → q.staticOf? m = p.staticOf? m) :
    q.twinOf? m = p.twinOf? m := by
  unfold twinOf?
  rw [hdefault]
  by_cases hm : p.isDefault m = true
  · rw [if_pos hm, if_pos hm, hstatic hm]
  · rw [if_neg hm, if_neg hm]

theorem twinOf_withTwin (hp : p.Coherent) {d : MethodRef} (hd : p.isDefault d = true)
    (hnone : p.staticOf? d = none) :
    (p.withTwin d).twinOf? m = if m = d then some p.next else p.twinOf? m := by
  have hext : p.Extends (p.withTwin d) := .withTwin hp.toWired hd
  unfold twinOf?
  rw [hext.isDefault]
  by_cases hm : p.isDefault m = true
  · rw [if_pos hm, if_pos hm, staticOf_withTwin hp hd hnone hm]
  · have hmd : m ≠ d := by
      rintro rfl
      exact hm hd
    rw [if_neg hm, if_neg hm, if_neg hmd]

end

/-- A step leaves all twins as they are, and their table, or it is the one that makes a twin. -/
theorem Step.twinOf_cases (h : Step permit p q) (hp : p.Coherent) :
    (q.twinOf? = p.twinOf? ∧ q.statics = p.statics) ∨
      ∃ d, q = p.withTwin d ∧ p.isDefault d = true ∧ p.staticOf? d = none ∧ permit.twins d := by
  have hext := h.extends hp
  cases h with
  | twin d hd hnone hpermit => exact .inr ⟨d, rfl, hd, hnone, hpermit⟩
  | forwarder =>
    refine .inl ⟨?_, statics_withMethod rfl⟩
    funext m
    exact twinOf_congr hext.isDefault (staticOf_withMethod hp.toWired rfl hext)
  | code m pos block hbody =>
    refine .inl ⟨?_, rfl⟩
    funext k
    exact twinOf_congr hext.isDefault (staticOf_withBody hbody isUsable_turnover)
  | fragment m pos f refs name hbody =>
    refine .inl ⟨?_, rfl⟩
    funext k
    refine twinOf_congr hext.isDefault (staticOf_withBody hbody ?_)
    rfl

/-- A method gets a twin only if it may. -/
theorem Steps.permitted (h : Steps permit p q) (hp : p.Coherent) {d : MethodRef}
    (hq : (q.twinOf? d).isSome = true) : (p.twinOf? d).isSome = true ∨ permit.twins d := by
  refine (h.induct (P := fun q => (q.twinOf? d).isSome = true →
    (p.twinOf? d).isSome = true ∨ permit.twins d) hp .inl ?_).2 hq
  intro q r _ hcoherent ih hstep hr
  rcases hstep.twinOf_cases hcoherent with ⟨hsame, -⟩ | ⟨d', rfl, hd', hnone, hpermit⟩
  · rw [hsame] at hr
    exact ih hr
  · rw [twinOf_withTwin hcoherent hd' hnone] at hr
    by_cases hd : d = d'
    · exact .inr (hd ▸ hpermit)
    · rw [if_neg hd] at hr
      exact ih hr

/-! ## Section 3: New methods -/

/-- What a new method can be. -/
def Created (permit : Permit) (p : Program) (k : MethodRef) : Prop :=
  (∃ d, p.isDefault d = true ∧ p.staticOf? d = some k) ∨
    (permit.forwarders ∧ (p.type (p.home k)).isInterface = false)

theorem Created.extends {k : MethodRef} (h : Created permit p k) (hext : p.Extends q)
    (hlt : k.index < p.methods.length) : Created permit q k := by
  rcases h with ⟨d, hd, hk⟩ | ⟨hforwarders, hclass⟩
  · refine .inl ⟨d, ?_, hext.staticOf d k hd hk⟩
    rw [hext.isDefault]
    exact hd
  · refine .inr ⟨hforwarders, ?_⟩
    rw [hext.home hlt, DeclaredType.isInterface, hext.typeKind]
    exact hclass

/-- A step adds at most one method. -/
theorem Step.created (h : Step permit p q) (hp : p.Coherent) {k : MethodRef}
    (hge : p.methods.length ≤ k.index) (hlt : k.index < q.methods.length) :
    k = p.next ∧ Created permit q k := by
  have hext := h.extends hp
  -- the methods that are there after one has been added
  have hnext : q.methods.length = p.methods.length + 1 → k = p.next := by
    intro hlength
    rw [hlength, lt_next_iff] at hlt
    exact hlt.resolve_left (Nat.not_lt.mpr hge)
  cases h with
  | twin d hd hnone =>
    have hk := hnext length_methods_withTwin
    refine ⟨hk, .inl ⟨d, ?_, ?_⟩⟩
    · rw [hext.isDefault]
      exact hd
    · rw [staticOf_withTwin hp hd hnone hd, if_pos rfl, hk]
  | forwarder d twin t hd htwin ht hclass hown hpermit =>
    have hk := hnext (length_methods_withMethod rfl)
    refine ⟨hk, .inr ⟨hpermit, ?_⟩⟩
    have hhome : home (p.withMethod t (Forwarding.forwarderFor p t d twin p.next)) k = t := by
      rw [hk, home, method_withMethod_self rfl]
      rfl
    rw [hhome, DeclaredType.isInterface, hext.typeKind]
    exact hclass
  | code =>
    rw [length_methods_withBody] at hlt
    omega
  | fragment =>
    rw [length_methods_withBody] at hlt
    omega

/-- Every method that a run adds is the twin of a default method or, if it may add such, a
    forwarder. -/
theorem Steps.created (h : Steps permit p q) (hp : p.Coherent) {k : MethodRef}
    (hge : p.methods.length ≤ k.index) (hlt : k.index < q.methods.length) :
    Created permit q k := by
  refine (h.induct (P := fun q => k.index < q.methods.length → Created permit q k) hp ?_ ?_).2 hlt
  · intro hlt
    omega
  · intro q r _ hcoherent ih hstep hr
    by_cases hq : k.index < q.methods.length
    · exact (ih hq).extends (hstep.extends hcoherent) hq
    · exact (hstep.created hcoherent (Nat.le_of_not_lt hq) hr).2

theorem added_withMethod (hp : p.Wired) {t u : TypeRef} {x : Method} (hx : x.id = none)
    (ht : t ∈ p.declared) : ∃ new, ((p.withMethod t x).type u).methods = (p.type u).methods ++ new ∧
      ∀ m ∈ new, p.methods.length ≤ m.index := by
  by_cases hu : u = t
  · refine ⟨[p.next], ?_, ?_⟩
    · rw [hu, type_withMethod_self hx (hp.declared_lt t ht)]
    · intro m hm
      rw [List.mem_singleton.mp hm]
      exact Nat.le_refl _
  · refine ⟨[], ?_, nofun⟩
    rw [type_withMethod_ne hx hu, List.append_nil]

theorem Step.added (h : Step permit p q) (hp : p.Coherent) (t : TypeRef) :
    ∃ new, (q.type t).methods = (p.type t).methods ++ new ∧ ∀ m ∈ new, p.methods.length ≤ m.index := by
  cases h with
  | twin d hd =>
    exact added_withMethod hp.toWired (x := p.twinMethod d) rfl
      (hp.home_declared (lt_of_isDefault hd)).1
  | forwarder d twin u hd htwin hu => exact added_withMethod hp.toWired rfl hu
  | code => exact ⟨[], (List.append_nil _).symm, nofun⟩
  | fragment =>
    exact ⟨[], (List.append_nil _).symm, nofun⟩

/-- New methods stand behind the old ones of their types. -/
theorem Steps.added (h : Steps permit p q) (hp : p.Coherent) (t : TypeRef) :
    ∃ new, (q.type t).methods = (p.type t).methods ++ new ∧ ∀ m ∈ new, p.methods.length ≤ m.index := by
  refine (h.induct (P := fun q => ∃ new, (q.type t).methods = (p.type t).methods ++ new ∧
    ∀ m ∈ new, p.methods.length ≤ m.index) hp ⟨[], (List.append_nil _).symm, nofun⟩ ?_).2
  rintro q r hsteps hcoherent ⟨new, hnew, hge⟩ hstep
  obtain ⟨newer, hnewer, hge'⟩ := hstep.added hcoherent t
  refine ⟨new ++ newer, by rw [hnewer, hnew, List.append_assoc], ?_⟩
  intro m hm
  rcases List.mem_append.mp hm with hm | hm
  · exact hge m hm
  · exact Nat.le_trans (hsteps.extends hp).length_methods (hge' m hm)

/-- The default methods of a type are the old ones, in the old order. -/
theorem Steps.defaultsOf (h : Steps permit p q) (hp : p.Coherent) (t : TypeRef) :
    q.defaultsOf t = p.defaultsOf t := by
  obtain ⟨new, hnew, hge⟩ := h.added hp t
  have hnone : new.filter p.isDefault = [] := by
    rw [List.filter_eq_nil_iff]
    intro m hm
    rw [isDefault_of_le (hge m hm)]
    exact Bool.false_ne_true
  unfold Program.defaultsOf
  rw [(h.extends hp).isDefault, hnew, List.filter_append, hnone, List.append_nil]

/-! ## Section 4: Numbers of methods -/

/-- Without forwarders there is at most one new method for every old one, since every new method is
    the twin of another default method. -/
theorem Steps.length_methods_le (h : Steps permit p q) (hp : p.Coherent)
    (hpermit : ¬permit.forwarders) : q.methods.length ≤ 2 * p.methods.length := by
  have hext := h.extends hp
  have htwin : ∀ k, p.methods.length ≤ k → k < q.methods.length →
      ∃ d, q.isDefault d = true ∧ q.staticOf? d = some ⟨k⟩ := by
    intro k hge hlt
    rcases h.created hp (k := ⟨k⟩) hge hlt with htwin | ⟨hforwarders, -⟩
    · exact htwin
    · exact absurd hforwarders hpermit
  choose! owner howner using htwin
  have hcard := Finset.card_le_card_of_injOn
    (s := Finset.Ico p.methods.length q.methods.length) (t := Finset.range p.methods.length)
    (fun k => (owner k).index) ?_ ?_
  · rw [Nat.card_Ico, Finset.card_range] at hcard
    omega
  · -- a default method is an old one
    intro k hk
    obtain ⟨hge, hlt⟩ := Finset.mem_Ico.mp hk
    have hdefault := (howner k hge hlt).1
    rw [hext.isDefault] at hdefault
    simpa using lt_of_isDefault hdefault
  · -- and it has one twin
    intro k hk k' hk' hsame
    obtain ⟨hge, hlt⟩ := Finset.mem_Ico.mp hk
    obtain ⟨hge', hlt'⟩ := Finset.mem_Ico.mp hk'
    have howners : owner k = owner k' := by
      cases hok : owner k
      cases hok' : owner k'
      simpa [hok, hok'] using hsame
    have hk₁ := (howner k hge hlt).2
    rw [howners, (howner k' hge' hlt').2, Option.some.injEq] at hk₁
    exact (congrArg MethodRef.index hk₁).symm

theorem length_methods_type_withMethod {t u : TypeRef} {x : Method} (hx : x.id = none) :
    ((p.withMethod t x).type u).methods.length ≤ (p.type u).methods.length + 1 := by
  by_cases hu : u = t
  · by_cases ht : t.index < p.types.length
    · rw [hu, type_withMethod_self hx ht]
      simp
    · have hnone : ((p.withMethod t x).type u).methods = [] := by
        rw [hu, type_of_le]
        · rfl
        · rw [length_types_withMethod hx]
          exact Nat.le_of_not_lt ht
      rw [hnone]
      exact Nat.zero_le _
  · rw [type_withMethod_ne hx hu]
    exact Nat.le_succ _

/-- A type gets no more methods than the program. -/
theorem Step.length_type_le (h : Step permit p q) (t : TypeRef) :
    (q.type t).methods.length + p.methods.length ≤
      (p.type t).methods.length + q.methods.length := by
  cases h with
  | twin d =>
    have htype := length_methods_type_withMethod (p := p) (t := p.home d) (u := t)
      (x := p.twinMethod d) rfl
    change ((p.withMethod (p.home d) (p.twinMethod d)).type t).methods.length + _ ≤ _
    rw [length_methods_withTwin]
    omega
  | forwarder d twin u =>
    have htype := length_methods_type_withMethod (p := p) (t := u) (u := t)
      (x := Forwarding.forwarderFor p u d twin p.next) rfl
    rw [length_methods_withMethod rfl]
    omega
  | code =>
    rw [length_methods_withBody]
    exact Nat.le_refl _
  | fragment =>
    rw [length_methods_withBody]
    exact Nat.le_refl _

theorem Steps.length_type_le (h : Steps permit p q) (hp : p.Coherent) (t : TypeRef) :
    (q.type t).methods.length + p.methods.length ≤
      (p.type t).methods.length + q.methods.length := by
  refine (h.induct (P := fun q => (q.type t).methods.length + p.methods.length ≤
    (p.type t).methods.length + q.methods.length) hp (Nat.le_refl _) ?_).2
  intro q r _ _ ih hstep
  have hle := hstep.length_type_le t
  omega

end DefaultLowering.Program
