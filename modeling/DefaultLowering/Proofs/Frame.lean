import DefaultLowering.Proofs.Recording
import DefaultLowering.Proofs.SingleTwin

/-!
# What lowering leaves alone

Lowering adds twins and forwarders, and it changes bodies.  Everything else stays: the types, their
supertypes and the order of what they declare, the heads of methods and their places in the arena, and
the distinction between default methods and others.

- `Steps.arena`: the arena grows at its end, by the new methods in their order;
- `Steps.synthetic`: new methods are marked as such;
- `Steps.native_of_none`: a method without a twin stays native or not;
- `Framed`: the whole statement, with what the new methods are and where the run records them;
- `lower_framed`: it holds of every successful run on a loaded program.
-/

namespace DefaultLowering.Program

variable {permit : Permit} {p q : Program}

/-! ## Section 1: The arena -/

/-- A step adds one method, at the end of the arena, or none. -/
theorem Step.arena_cases (h : Step permit p q) (hp : p.Coherent) :
    (q.arena = p.arena ∧ q.methods.length = p.methods.length) ∨
      (q.arena = p.arena ++ [p.next] ∧ q.methods.length = p.methods.length + 1) := by
  cases h with
  | twin d hd =>
    have hattached := hp.attached _ (hp.home_declared (lt_of_isDefault hd)).1
    exact .inr ⟨arena_withMethod (x := p.twinMethod d) rfl hattached, length_methods_withTwin⟩
  | forwarder d twin t hd htwin ht =>
    exact .inr ⟨arena_withMethod rfl (hp.attached t ht), length_methods_withMethod rfl⟩
  | code => exact .inl ⟨rfl, length_methods_withBody⟩
  | fragment =>
    exact .inl ⟨rfl, length_methods_withBody⟩

/-- After some steps the arena is the old one and then the new methods. -/
theorem Steps.arena (h : Steps permit p q) (hp : p.Coherent) :
    q.arena = p.arena ++ q.methodsFrom p.methods.length := by
  refine (h.induct (P := fun q => q.arena = p.arena ++ q.methodsFrom p.methods.length) hp ?_ ?_).2
  · rw [methodsFrom_self, List.append_nil]
  · intro q r hsteps hq ih hstep
    have hle := (hsteps.extends hp).length_methods
    rcases hstep.arena_cases hq with ⟨harena, hlength⟩ | ⟨harena, hlength⟩
    · rw [harena, ih, methodsFrom, methodsFrom, hlength]
    · rw [harena, ih, methodsFrom_succ hle hlength, List.append_assoc]

/-! ## Section 2: Heads -/

/-- What a step adds is marked as made by the pass. -/
theorem Step.synthetic (h : Step permit p q) (hp : p.Coherent) {k : MethodRef}
    (hge : p.methods.length ≤ k.index) (hlt : k.index < q.methods.length) :
    (q.method k).synthetic = true := by
  obtain ⟨rfl, -⟩ := h.created hp hge hlt
  cases h with
  | twin d hd =>
    rw [method_withTwin_next hp.toWired (lt_of_isDefault hd)]
    rfl
  | forwarder =>
    rw [method_withMethod_self rfl]
    rfl
  | code =>
    rw [length_methods_withBody] at hlt
    exact absurd hlt (Nat.lt_irrefl _)
  | fragment =>
    rw [length_methods_withBody] at hlt
    exact absurd hlt (Nat.lt_irrefl _)

theorem Steps.synthetic (h : Steps permit p q) (hp : p.Coherent) {k : MethodRef}
    (hge : p.methods.length ≤ k.index) (hlt : k.index < q.methods.length) :
    (q.method k).synthetic = true := by
  refine (h.induct (P := fun q => k.index < q.methods.length → (q.method k).synthetic = true) hp
    (fun hlt => absurd hlt (Nat.not_lt.mpr hge)) ?_).2 hlt
  intro q r hsteps hq ih hstep hr
  by_cases hk : k.index < q.methods.length
  · rw [(hstep.extends hq).method k hk]
    exact ih hk
  · exact hstep.synthetic hq (Nat.le_of_not_lt hk) hr

/-- Only a method that gets a twin can lose its native flag. -/
theorem Step.native_of_none (h : Step permit p q) (hp : p.Coherent) {m : MethodRef}
    (hlt : m.index < p.methods.length) (hnone : q.twinOf? m = none) :
    p.twinOf? m = none ∧ (q.method m).native = (p.method m).native := by
  have hbefore : p.twinOf? m = none := by
    rcases h.twinOf_cases hp with ⟨hsame, -⟩ | ⟨d, rfl, hd, hfree, -⟩
    · rw [← hsame]
      exact hnone
    · rw [twinOf_withTwin hp hd hfree] at hnone
      split at hnone
      · cases hnone
      · exact hnone
  refine ⟨hbefore, ?_⟩
  cases h with
  | twin d hd hfree =>
    -- the flag is cleared in the default method only, and that is not `m`
    have hmd : m ≠ d := by
      rintro rfl
      rw [twinOf_withTwin hp hd hfree, if_pos rfl] at hnone
      cases hnone
    rw [method_withTwin_other hmd (ne_next_of_lt hlt)]
  | forwarder =>
    rw [method_withMethod_ne rfl (ne_next_of_lt hlt)]
  | code k =>
    by_cases hmk : m = k
    · subst hmk
      rw [method_withBody_self hlt]
    · rw [method_withBody_ne hmk]
  | fragment k =>
    by_cases hmk : m = k
    · subst hmk
      rw [method_withBody_self hlt]
    · rw [method_withBody_ne hmk]

theorem Steps.native_of_none (h : Steps permit p q) (hp : p.Coherent) {m : MethodRef}
    (hlt : m.index < p.methods.length) (hnone : q.twinOf? m = none) :
    (q.method m).native = (p.method m).native := by
  refine (h.induct (P := fun q => q.twinOf? m = none →
    (q.method m).native = (p.method m).native) hp (fun _ => rfl) ?_).2 hnone
  intro q r hsteps hq ih hstep hr
  obtain ⟨hbefore, hsame⟩ := hstep.native_of_none hq
    (Nat.lt_of_lt_of_le hlt (hsteps.extends hp).length_methods) hr
  rw [hsame, ih hbefore]

/-- Native methods stay native, unless they are default methods with a twin. -/
theorem Phases.native {cache cache' : NameCache} (h : Phases p cache q cache') (hp : p.Fresh)
    {m : MethodRef} (hlt : m.index < p.methods.length) :
    (q.method m).native = ((p.method m).native && (q.twinOf? m).isNone) := by
  cases htwin : q.twinOf? m with
  | none =>
    rw [h.steps.native_of_none hp.toCoherent hlt htwin]
    exact (Bool.and_true _).symm
  | some t =>
    obtain ⟨hm, hstatic⟩ := twinOf_eq_some.mp htwin
    rw [(h.lowered.coherent.twin m t hm hstatic).native]
    exact (Bool.and_false _).symm

/-! ## Section 3: The specification -/

/-- What a new method of the type `t` is: in an interface the twin of one of its default methods, in a
    class a forwarder for a default method. -/
def NewIn (p q : Program) (summary : Summary) (t : TypeRef) (m : MethodRef) : Prop :=
  (q.method m).synthetic = true ∧
    if (p.type t).isInterface then
      m ∈ summary.twins ∧ (q.method m).static = true ∧ ∃ d ∈ p.defaultsOf t, q.twinOf? d = some m
    else
      m ∈ summary.forwarders ∧ (q.method m).static = false ∧ ∃ d, ForwarderOf p q (d, t) m

/-- What a run that leaves `q` has kept of the program `p`. -/
structure Framed (p q : Program) (summary : Summary) : Prop where
  /-- The same types, in the same order. -/
  declared : q.declared = p.declared
  length_types : q.types.length = p.types.length
  /-- Nothing about a type changes but for its methods, which are the old ones followed by new
      ones. -/
  type : ∀ t ∈ p.declared, ∃ new,
    q.type t = { p.type t with methods := (p.type t).methods ++ new } ∧
      ∀ m ∈ new, p.methods.length ≤ m.index ∧ p.NewIn q summary t m
  /-- The arena is the old one followed by the twins and the forwarders, in the order in which they
      were made.  Nothing else is new. -/
  arena : ∃ new, q.arena = p.arena ++ new ∧
    (∀ m ∈ new, p.methods.length ≤ m.index ∧ m.index < q.methods.length) ∧
      summary.twins = new.filter (fun m => (q.method m).static) ∧
      summary.forwarders = new.filter fun m => !(q.method m).static
  count : q.arena.length = p.arena.length + summary.twins.length + summary.forwarders.length
  /-- Nothing about an old method changes but for its body and its native flag: not its name, result,
      access, parameters, thrown types, overrides, position, index in the arena or other flags. -/
  method : ∀ m, m.index < p.methods.length →
    q.method m = { p.method m with body := (q.method m).body, native := (q.method m).native }
  /-- The native flag is lost by default methods that have got a twin, and by no other method. -/
  native : ∀ m, m.index < p.methods.length →
    (q.method m).native = ((p.method m).native && (q.twinOf? m).isNone)
  /-- The default methods are the old ones. -/
  isDefault : ∀ m, q.isDefault m = true ↔ m.index < p.methods.length ∧ p.isDefault m = true
  /-- A method of a class, or a static method, that uses no default method is not touched. -/
  untouched : ∀ m, m.index < p.methods.length →
    (p.type (p.home m)).isInterface = false ∨ (p.method m).static = true → p.Clean m →
      q.method m = p.method m

/-- Neither a method of a class nor a static method is a default method. -/
theorem isDefault_eq_false {m : MethodRef}
    (h : (p.type (p.home m)).isInterface = false ∨ (p.method m).static = true) :
    p.isDefault m = false := by
  cases hdefault : p.isDefault m with
  | false => rfl
  | true =>
    rw [isInterface_home hdefault, not_static_of_isDefault hdefault] at h
    rcases h with h | h <;> cases h

/-- A new method of a type after a successful run. -/
theorem Phases.newIn {cache cache' : NameCache} (h : Phases p cache q cache') (hp : p.Fresh)
    {summary : Summary}
    (hrecorded : Recorded p.methods.length q summary.twins summary.forwarders) {t : TypeRef}
    (ht : t ∈ p.declared) {m : MethodRef} (hm : m ∈ (q.type t).methods)
    (hge : p.methods.length ≤ m.index) : p.NewIn q summary t m := by
  have hext := h.steps.extends hp.toCoherent
  have hwired := h.lowered.coherent.toWired
  obtain ⟨hlt, henclosing⟩ := hwired.member t (hext.declared ▸ ht) m hm
  have hfrom : m ∈ q.methodsFrom p.methods.length := mem_methodsFrom.mpr ⟨hge, hlt⟩
  refine ⟨h.steps.synthetic hp.toCoherent hge hlt, ?_⟩
  -- a twin stands in the interface of its default method, and a forwarder in a class
  rcases h.created hp hge hlt with ⟨d, htwin⟩ | ⟨d, c, hclass, hforwarder⟩
  · obtain ⟨hd, hstatic⟩ := twinOf_eq_some.mp htwin
    have htwinOf := h.lowered.coherent.twin d m hd hstatic
    rw [hext.isDefault] at hd
    have hhome : p.home d = t := by
      have hsame := htwinOf.enclosing
      rw [henclosing, hext.enclosing (lt_of_isDefault hd), enclosing_of_isDefault hd,
        Option.some.injEq] at hsame
      exact hsame.symm
    rw [if_pos (hhome ▸ isInterface_home hd)]
    refine ⟨?_, htwinOf.static, d, (mem_defaultsOf hp.toWired ht).mpr ⟨hd, hhome⟩, htwin⟩
    rw [hrecorded.twins]
    exact List.mem_filter.mpr ⟨hfrom, by rw [htwinOf.static]; rfl⟩
  · rw [hforwarder.enclosing, Option.some.injEq] at henclosing
    subst henclosing
    rw [hclass, if_neg Bool.false_ne_true]
    refine ⟨?_, hforwarder.static, d, hforwarder⟩
    rw [hrecorded.forwarders]
    exact List.mem_filter.mpr ⟨hfrom, by rw [hforwarder.static]; rfl⟩

/-- A successful run on a loaded program leaves alone whatever it does not have to change: the types
    and their order, the heads of methods, the arena up to its old end, which methods are default
    methods, and the bodies of other methods that use none. -/
theorem lower_framed (hp : p.Loaded) {cache cache' : NameCache} {summary : Summary}
    (hrun : p.lower cache = ⟨q, cache', .ok summary⟩) : Framed p q summary := by
  have hfresh := hp.fresh
  have hphases := lower_phases hfresh.toCoherent hrun
  have hrecorded := lower_recorded hrun
  have hext := hphases.steps.extends hfresh.toCoherent
  have harena := hphases.steps.arena hfresh.toCoherent
  -- the records split the new part of the arena in two
  have htwins : summary.twins =
      (q.methodsFrom p.methods.length).filter fun m => (q.method m).static := by
    rw [hrecorded.twins, methodsSince]
    exact List.filter_congr fun m _ => beq_true _
  have hforwarders : summary.forwarders =
      (q.methodsFrom p.methods.length).filter fun m => !(q.method m).static := by
    rw [hrecorded.forwarders, methodsSince]
    exact List.filter_congr fun m _ => beq_false _
  refine ⟨hext.declared, hext.length_types, ?_, ?_, ?_, hext.method, ?_, ?_, ?_⟩
  · intro t ht
    obtain ⟨new, hnew, hge⟩ := hphases.steps.added hfresh.toCoherent t
    refine ⟨new, ?_, fun m hm => ⟨hge m hm, ?_⟩⟩
    · obtain ⟨_, htype⟩ := hext.type t
      rw [← hnew, htype]
    · refine hphases.newIn hfresh hrecorded ht ?_ (hge m hm)
      rw [hnew]
      exact List.mem_append_right _ hm
  · exact ⟨_, harena, fun m hm => mem_methodsFrom.mp hm, htwins, hforwarders⟩
  · have hsplit := List.length_eq_length_filter_add (l := q.methodsFrom p.methods.length)
      fun m => (q.method m).static
    rw [harena, List.length_append, hsplit, ← htwins, ← hforwarders, Nat.add_assoc]
  · exact fun m hm => hphases.native hfresh hm
  · intro m
    rw [hext.isDefault]
    exact ⟨fun hm => ⟨lt_of_isDefault hm, hm⟩, fun hm => hm.2⟩
  · intro m hm hkind hclean
    exact hphases.steps.method_of_clean hfresh.toCoherent hm (isDefault_eq_false hkind) hclean

/-- The small program gets three twins and two forwarders. -/
theorem lower_framed_greeting : ∃ q cache summary, greetingProgram.Loaded ∧
    greetingProgram.lower {} = ⟨q, cache, .ok summary⟩ ∧ Framed greetingProgram q summary ∧
      q.arena.length = greetingProgram.arena.length + 5 := by
  obtain ⟨q, cache, summary, hrun, htwins, hforwarders⟩ := greeting_lowers
  have hframed := lower_framed greeting_loaded hrun
  refine ⟨q, cache, summary, greeting_loaded, hrun, hframed, ?_⟩
  rw [hframed.count, htwins, hforwarders]

end DefaultLowering.Program
