import DefaultLowering.Proofs.Coherence

/-!
# Making a twin

What the request for a twin does to a coherent program.  It cannot fail: a default method without a
twin gets one, and the effect is `withTwin`, in which

- the twin is a new method of the interface, with the relocated body;
- the table of static implementations has one entry more;
- the default method is left with a delegating body.

The new program is coherent and extends the old one.  The same is shown once for every new method
that is no default method (`Wired.withMethod`, `Extends.withMethod`) and for every change of bodies
(`Wired.of_bodies`, `Extends.of_bodies`).
-/

namespace DefaultLowering.Program

/-! ## Section 1: A new method -/

theorem isDefault_of_le {p : Program} {m : MethodRef} (h : p.methods.length ≤ m.index) :
    p.isDefault m = false := by
  cases hd : p.isDefault m with
  | false => rfl
  | true => exact absurd (lt_of_isDefault hd) (Nat.not_lt.mpr h)

section withMethod

variable {p : Program} {t : TypeRef} {x : Method}

theorem Wired.withMethod (hp : p.Wired) (ht : t ∈ p.declared) (hx : x.id = none) :
    (p.withMethod t x).Wired := by
  have hattached := hp.attached t ht
  have hlt := hp.declared_lt t ht
  have hdeclared := declared_withMethod (p := p) (t := t) hx
  have hkept : ∀ u, ((p.withMethod t x).type u).name = (p.type u).name ∧
      ((p.withMethod t x).type u).attached = (p.type u).attached := by
    intro u
    by_cases hu : u = t
    · rw [hu, type_withMethod_self hx hlt]
      exact ⟨rfl, rfl⟩
    · rw [type_withMethod_ne hx hu]
      exact ⟨rfl, rfl⟩
  have hfiled := hp.filed.withMethod hx ht
  rw [← hdeclared] at hfiled
  refine ⟨hfiled.lt, ?_, ?_, hfiled.owner, hfiled.member, ?_, ?_⟩
  · rw [hdeclared]
    simp only [(hkept _).2]
    exact hp.attached
  · rw [hdeclared]
    simp only [(hkept _).1]
    exact hp.name_inj
  · intro m hm
    rw [length_methods_withMethod hx, lt_next_iff] at hm
    rw [arena_withMethod hx hattached]
    -- old methods keep their places, the new one gets the last
    rcases hm with hm | rfl
    · obtain ⟨i, hid, hi⟩ := hp.registered m hm
      rw [method_withMethod_ne hx (ne_next_of_lt hm)]
      refine ⟨i, hid, ?_⟩
      rw [List.getElem?_append_left (List.getElem?_eq_some_iff.mp hi).1]
      exact hi
    · refine ⟨p.arena.length, ?_, ?_⟩
      · rw [method_withMethod_self hx, hattached]
        rfl
      · simp [next]
  · rw [statics_withMethod hx, arena_withMethod hx hattached]
    intro e he
    rw [List.length_append]
    exact Nat.lt_add_right 1 (hp.statics_lt e he)

/-- A new static method, or one of a class, is no default method and leaves the others alone. -/
theorem Extends.withMethod (hp : p.Wired) (ht : t ∈ p.declared) (hx : x.id = none)
    (hkind : x.static = true ∨ (p.type t).isInterface = false) : p.Extends (p.withMethod t x) := by
  have hlt := hp.declared_lt t ht
  have htype : ∀ u, ∃ new, (p.withMethod t x).type u =
      { p.type u with methods := (p.type u).methods ++ new } := by
    intro u
    by_cases hu : u = t
    · exact ⟨[p.next], by rw [hu, type_withMethod_self hx hlt]⟩
    · exact ⟨[], by rw [type_withMethod_ne hx hu]; simp⟩
  have hsame : ∀ u, ((p.withMethod t x).type u).kind = (p.type u).kind := by
    intro u
    obtain ⟨new, hnew⟩ := htype u
    rw [hnew]
  have hdefault : (p.withMethod t x).isDefault = p.isDefault := by
    funext m
    by_cases hm : m = p.next
    · subst hm
      rw [isDefault_of_le (p := p) (m := p.next) (Nat.le_refl _)]
      cases hd : (p.withMethod t x).isDefault p.next with
      | false => rfl
      | true =>
        -- a default method is an instance method of an interface
        obtain ⟨u, hu, hinterface, hstatic, -⟩ := isDefault_iff.mp hd
        rw [method_withMethod_self hx] at hu hstatic
        cases hu
        rw [DeclaredType.isInterface, hsame, ← DeclaredType.isInterface] at hinterface
        rcases hkind with hkind | hkind <;> simp_all
    · have hmethod : (p.withMethod t x).method m = p.method m := method_withMethod_ne hx hm
      exact isDefault_congr (by rw [hmethod]) (by rw [hmethod]) (by rw [hmethod])
        (by rw [hmethod]) hsame
  have hkey : ∀ d, p.isDefault d = true → (p.withMethod t x).key d = p.key d := by
    intro d hd
    obtain ⟨u, hu, -⟩ := isDefault_iff.mp hd
    obtain ⟨new, hnew⟩ := htype u
    have hmethod : (p.withMethod t x).method d = p.method d :=
      method_withMethod_ne hx (ne_next_of_lt (lt_of_enclosing hu))
    simp only [Program.key, Program.enclosingName, hmethod, hu, hnew]
  refine ⟨declared_withMethod hx, length_types_withMethod hx, htype, ?_, ?_, hdefault, ?_⟩
  · rw [length_methods_withMethod hx]
    exact Nat.le_succ _
  · intro m hm
    rw [method_withMethod_ne hx (ne_next_of_lt hm)]
    exact SameHead.refl _
  · intro d impl hd hstatic
    unfold staticOf? at hstatic ⊢
    rw [hkey d hd, statics_withMethod hx, arena_withMethod hx (hp.attached t ht)]
    obtain ⟨i, hi, harena⟩ := Option.bind_eq_some_iff.mp hstatic
    rw [hi, Option.bind_some, List.getElem?_append_left (List.getElem?_eq_some_iff.mp harena).1]
    exact harena

end withMethod

/-! ## Section 2: Changed bodies -/

section bodies

variable {p q : Program} {new : List (MethodKey × Nat)} (htypes : q.types = p.types)
  (hdeclared : q.declared = p.declared) (hlength : q.methods.length = p.methods.length)
  (harena : q.arena = p.arena) (hstatics : q.statics = p.statics ++ new)
  (hmethod : ∀ m, SameHead (p.method m) (q.method m))

include htypes hdeclared hlength harena hstatics hmethod

theorem Wired.of_bodies (hp : p.Wired) (hnew : ∀ e ∈ new, e.2 < p.arena.length) : q.Wired := by
  have htype : ∀ t, q.type t = p.type t := by
    intro t
    simp only [type, htypes]
  have hfiled : q.Filed q.declared := by
    rw [hdeclared]
    refine hp.filed.congr (by rw [htypes]) hlength (fun t => by rw [htype]) fun m => ?_
    rw [hmethod m]
  refine ⟨hfiled.lt, ?_, ?_, hfiled.owner, hfiled.member, ?_, ?_⟩
  · simp only [hdeclared, htype]
    exact hp.attached
  · simp only [hdeclared, htype]
    exact hp.name_inj
  · intro m hm
    rw [hmethod m, harena]
    exact hp.registered m (hlength ▸ hm)
  · intro e he
    rw [hstatics, List.mem_append] at he
    rw [harena]
    rcases he with he | he
    · exact hp.statics_lt e he
    · exact hnew e he

theorem Extends.of_bodies
    (husable : ∀ m, usable (q.method m).body = usable (p.method m).body) : p.Extends q := by
  have htype : ∀ t, q.type t = p.type t := by
    intro t
    simp only [Program.type, htypes]
  have hdefault : q.isDefault = p.isDefault := by
    funext m
    exact isDefault_congr (by rw [hmethod m]) (by rw [hmethod m]) (by rw [hmethod m]) (husable m)
      (by intro t; rw [htype])
  have hkey : ∀ m, q.key m = p.key m := by
    intro m
    simp only [Program.key, Program.enclosingName, (hmethod m).signature, htype]
    rw [hmethod m]
  refine ⟨hdeclared, by rw [htypes], fun t => ⟨[], by rw [htype]; simp⟩, Nat.le_of_eq hlength.symm,
    fun m _ => hmethod m, hdefault, ?_⟩
  intro d t hd hstatic
  unfold staticOf? at hstatic ⊢
  obtain ⟨i, hi, harena'⟩ := Option.bind_eq_some_iff.mp hstatic
  rw [hkey, hstatics, List.lookup_append, hi, harena]
  exact harena'

end bodies

/-! ## Section 3: The effect of a request -/

def Body.isNative : Body → Bool
  | .code .. => false
  | .native .. => true

/-- A body after the move to a twin. -/
def Relocation.body (r : Relocation) : Body → Body
  | .code pos block => .code pos (block.map fun b => ⟨b.pos, r.stmts b.stmts⟩)
  | .native pos func refs => .native pos (func.map Fragment.Function.withReceiver) refs

/-- The twin that a default method gets. -/
def twinMethod (p : Program) (d : MethodRef) : Method :=
  { twinHead (p.method d) (p.enclosingName d) with
    frozen := true
    native := (p.method d).body.any Body.isNative
    body := (p.method d).body.map (Relocation.body ⟨d, p.next⟩) }

/-- The program in which the default method `d` has got a twin. -/
def withTwin (p : Program) (d : MethodRef) : Program :=
  { p.withMethod (p.home d) (p.twinMethod d) with
    statics := p.statics ++ [(p.key d, p.arena.length)] }.updateMethod d fun x =>
      { x with body := some (delegatingBody d (p.method d) (p.home d) p.next), native := false }

section withTwin

variable {p : Program} {d : MethodRef}

theorem recordStatic_withMethod (hp : p.Wired) (hd : p.isDefault d = true)
    (hnone : p.staticOf? d = none) {x : Method} (hx : x.id = none) (hstatic : x.static = true) :
    (p.withMethod (p.home d) x).recordStatic d p.next = .ok
      { p.withMethod (p.home d) x with statics := p.statics ++ [(p.key d, p.arena.length)] } := by
  have hlt := lt_of_isDefault hd
  obtain ⟨hhome, -, -⟩ := hp.home_declared hlt
  have hattached := hp.attached _ hhome
  have hid : ((p.withMethod (p.home d) x).method p.next).id = some p.arena.length := by
    rw [method_withMethod_self hx, hattached]
    rfl
  have harena : (p.withMethod (p.home d) x).arena[p.arena.length]? = some p.next := by
    rw [arena_withMethod hx hattached]
    simp [next]
  have hkey : (p.withMethod (p.home d) x).key d = p.key d :=
    (Extends.withMethod hp hhome hx (.inl hstatic)).key hlt
  unfold recordStatic
  simp only [hid, harena, ne_eq, not_true_eq_false, if_false, hkey, statics_withMethod hx,
    hp.lookup_statics hnone]

theorem installTwin_eq (hp : p.Wired) (hd : p.isDefault d = true) (hnone : p.staticOf? d = none)
    {x : Method} (hx : { x with frozen := true } = p.twinMethod d) :
    p.installTwin d (p.home d) x = (p.next, p.withTwin d) := by
  have hrecord := recordStatic_withMethod hp hd hnone (x := p.twinMethod d) rfl rfl
  have hadded : (p.newMethod (p.twinMethod d)).2.appendMethod (p.home d) p.next =
      p.withMethod (p.home d) (p.twinMethod d) := rfl
  have hnext : (p.newMethod (p.twinMethod d)).1 = p.next := rfl
  unfold installTwin
  simp only [hx, hnext, hadded, hrecord]
  rfl

/-- No body of a coherent program stops the relocation. -/
theorem makeTwin_eq (hp : p.Coherent) (hd : p.isDefault d = true) (hnone : p.staticOf? d = none) :
    p.makeTwin d (p.home d) = .made p.next (p.withTwin d) ⟨d, p.next⟩ := by
  have hname : (p.type (p.home d)).name = p.enclosingName d := by
    simp [enclosingName, enclosing_of_isDefault hd]
  obtain ⟨-, -, -, -, -, husable⟩ := isDefault_iff.mp hd
  unfold makeTwin
  rcases hbody : (p.method d).body with _ | ⟨pos, _ | block⟩ | ⟨pos, func, refs⟩
  · simp [usable, hbody] at husable
  · simp [usable, hbody, Body.isUsable] at husable
  · have hreach := Relocation.reachStmts_of_placed ⟨d, p.next⟩ (hp.placed d pos block hbody)
    simp only [hbody, hname, show (⟨p.methods.length⟩ : MethodRef) = p.next from rfl, hreach]
    rw [installTwin_eq hp.toWired hd hnone]
    simp [twinMethod, hbody, Relocation.body, Body.isNative, twinHead]
  · simp only [hbody, hname, show (⟨p.methods.length⟩ : MethodRef) = p.next from rfl]
    rw [installTwin_eq hp.toWired hd hnone]
    simp [twinMethod, hbody, Relocation.body, Body.isNative]

/-- Whatever program it is in, a default method that gets a twin gets one with its own head. -/
theorem installTwin_of_made {q : Program} {m twin : MethodRef} {r : Relocation}
    (h : p.requestTwin m = .made twin q r) :
    p.isDefault m = true ∧ ∃ iface native body, (p.method m).enclosing = some iface ∧
      twin = (p.installTwin m iface { twinHead (p.method m) (p.type iface).name with
        native := native, body := body }).1 ∧
      q = (p.installTwin m iface { twinHead (p.method m) (p.type iface).name with
        native := native, body := body }).2 := by
  unfold requestTwin at h
  split at h
  · cases h
  split at h
  · cases h
  next hnot =>
  have hdefault : p.isDefault m = true := by simpa using hnot
  split at h
  · cases h
  split at h
  · cases h
  next iface henclosing =>
  refine ⟨hdefault, iface, ?_⟩
  simp only [makeTwin] at h
  split at h
  · split at h
    · cases h
      exact ⟨_, _, henclosing, rfl, rfl⟩
    · cases h
  · cases h
    exact ⟨_, _, henclosing, rfl, rfl⟩
  · cases h

/-- A default method without a twin gets one. -/
theorem requestTwin_eq (hp : p.Coherent) (hd : p.isDefault d = true) :
    p.requestTwin d = match p.staticOf? d with
      | some twin => .known twin
      | none => .made p.next (p.withTwin d) ⟨d, p.next⟩ := by
  unfold requestTwin
  cases hnone : p.staticOf? d with
  | some => rfl
  | none =>
    obtain ⟨i, hid, -⟩ := hp.registered d (lt_of_isDefault hd)
    simp only [hd, Bool.not_true, Bool.false_eq_true, if_false, hid, Option.isNone_some,
      enclosing_of_isDefault hd]
    exact makeTwin_eq hp hd hnone

/-! ## Section 4: The program with the twin -/

/-- The default method after it has got its twin. -/
def delegating (p : Program) (d : MethodRef) : Method :=
  { p.method d with
    body := some (delegatingBody d (p.method d) (p.home d) p.next), native := false }

theorem method_withTwin_self (hlt : d.index < p.methods.length) :
    (p.withTwin d).method d = p.delegating d := by
  unfold withTwin
  rw [method_updateMethod_self]
  · change { (p.withMethod (p.home d) (p.twinMethod d)).method d with
      body := some (delegatingBody d (p.method d) (p.home d) p.next), native := false } = _
    rw [method_withMethod_ne (x := p.twinMethod d) rfl (ne_next_of_lt hlt)]
    rfl
  · change d.index < (p.withMethod (p.home d) (p.twinMethod d)).methods.length
    rw [length_methods_withMethod (x := p.twinMethod d) rfl]
    exact Nat.lt_add_right 1 hlt

theorem method_withTwin_ne {k : MethodRef} (hk : k ≠ d) :
    (p.withTwin d).method k = (p.withMethod (p.home d) (p.twinMethod d)).method k := by
  unfold withTwin
  rw [method_updateMethod_ne _ hk]
  rfl

theorem method_withTwin_other {k : MethodRef} (hk : k ≠ d) (hnext : k ≠ p.next) :
    (p.withTwin d).method k = p.method k := by
  rw [method_withTwin_ne hk, method_withMethod_ne (x := p.twinMethod d) rfl hnext]

theorem method_withTwin_next (hp : p.Wired) (hlt : d.index < p.methods.length) :
    (p.withTwin d).method p.next =
      { p.twinMethod d with enclosing := some (p.home d), id := some p.arena.length } := by
  have hattached := hp.attached _ (hp.home_declared hlt).1
  rw [method_withTwin_ne (ne_next_of_lt hlt).symm,
    method_withMethod_self (x := p.twinMethod d) rfl, hattached]
  rfl

theorem sameHead_withTwin (hlt : d.index < p.methods.length) (k : MethodRef) :
    SameHead ((p.withMethod (p.home d) (p.twinMethod d)).method k) ((p.withTwin d).method k) := by
  by_cases hk : k = d
  · rw [hk, method_withTwin_self hlt, method_withMethod_ne (x := p.twinMethod d) rfl
      (ne_next_of_lt hlt)]
    rfl
  · rw [method_withTwin_ne hk]
    exact SameHead.refl _

theorem statics_withTwin : (p.withTwin d).statics =
    (p.withMethod (p.home d) (p.twinMethod d)).statics ++ [(p.key d, p.arena.length)] := by
  rw [statics_withMethod (x := p.twinMethod d) rfl]
  rfl

theorem Wired.withTwin (hp : p.Wired) (hd : p.isDefault d = true) : (p.withTwin d).Wired := by
  have hlt := lt_of_isDefault hd
  have hhome := (hp.home_declared hlt).1
  have hmid : (p.withMethod (p.home d) (p.twinMethod d)).Wired := hp.withMethod hhome rfl
  refine Wired.of_bodies (p := p.withMethod (p.home d) (p.twinMethod d)) rfl rfl ?_ rfl
    statics_withTwin (sameHead_withTwin hlt) hmid ?_
  · exact length_methods_updateMethod ..
  · intro e he
    rw [List.mem_singleton] at he
    rw [he, arena_withMethod (x := p.twinMethod d) rfl (hp.attached _ hhome)]
    simp

theorem Extends.withTwin (hp : p.Wired) (hd : p.isDefault d = true) : p.Extends (p.withTwin d) := by
  have hlt := lt_of_isDefault hd
  have hmid : p.Extends (p.withMethod (p.home d) (p.twinMethod d)) :=
    Extends.withMethod hp (hp.home_declared hlt).1 rfl (.inl rfl)
  refine hmid.trans
    (Extends.of_bodies rfl rfl ?_ rfl statics_withTwin (sameHead_withTwin hlt) ?_)
  · exact length_methods_updateMethod ..
  · intro k
    by_cases hk : k = d
    · obtain ⟨-, -, -, -, -, husable⟩ := isDefault_iff.mp hd
      rw [hk, method_withTwin_self hlt, method_withMethod_ne (x := p.twinMethod d) rfl
        (ne_next_of_lt hlt), husable]
      rfl
    · rw [method_withTwin_ne hk]

theorem length_methods_withTwin : (p.withTwin d).methods.length = p.methods.length + 1 := by
  unfold withTwin
  rw [length_methods_updateMethod]
  exact length_methods_withMethod (x := p.twinMethod d) rfl

/-- The new entry is the only change of the table. -/
theorem staticOf_withTwin (hp : p.Coherent) (hd : p.isDefault d = true)
    (hnone : p.staticOf? d = none) {d' : MethodRef} (hd' : p.isDefault d' = true) :
    (p.withTwin d).staticOf? d' = if d' = d then some p.next else p.staticOf? d' := by
  have hlt := lt_of_isDefault hd
  have hattached := hp.attached _ (hp.home_declared hlt).1
  have hkey : (p.withTwin d).key d' = p.key d' :=
    (Extends.withTwin hp.toWired hd).key (lt_of_isDefault hd')
  have harena : (p.withTwin d).arena = p.arena ++ [p.next] :=
    arena_withMethod (x := p.twinMethod d) rfl hattached
  have hstatics : (p.withTwin d).statics = p.statics ++ [(p.key d, p.arena.length)] := rfl
  unfold staticOf?
  rw [hkey, harena, hstatics, List.lookup_append]
  by_cases hdd : d' = d
  · subst hdd
    rw [hp.lookup_statics hnone]
    simp
  · have hkeys : p.key d' ≠ p.key d := fun h => hdd (hp.key_inj d' d hd' hd h)
    have hlast : [(p.key d, p.arena.length)].lookup (p.key d') = none := by
      simp [List.lookup_cons, beq_eq_false_iff_ne.mpr hkeys]
    rw [hlast, if_neg hdd, Option.or_none]
    cases hl : p.statics.lookup (p.key d') with
    | none => rfl
    | some i =>
      obtain ⟨xs, ys, hs, -⟩ := List.lookup_eq_some_iff.mp hl
      have hi := hp.statics_lt (p.key d', i) (by rw [hs]; simp)
      exact List.getElem?_append_left hi

end withTwin

end DefaultLowering.Program
