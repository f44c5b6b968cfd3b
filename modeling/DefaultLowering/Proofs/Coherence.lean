import DefaultLowering.Lowering.Twin
import DefaultLowering.Proofs.Lookup
import DefaultLowering.Proofs.Turnover

/-!
# Coherent programs

A program is coherent when types, methods, arena and the table of static implementations fit each
other, and every twin in the table is the twin that the pass makes: a static method of the same
interface with the receiver in front of the parameters, to which the default method delegates.

- `Coherent`: the invariant of lowering;
- `Extends`: how a program may change while it is lowered.  Declarations stay, methods and twins are
  added, and the default methods remain the same ones.
-/

namespace DefaultLowering.Program

variable {p : Program} {m d : MethodRef}

/-! ## Section 1: Default methods -/

/-- The type that declares a method. -/
def home (p : Program) (m : MethodRef) : TypeRef := ((p.method m).enclosing).getD default

/-- A body that makes an instance method of an interface a default method. -/
def usable (b : Option Body) : Bool := (b.map Body.isUsable).getD false

theorem isDefault_iff :
    p.isDefault m = true ↔ ∃ t, (p.method m).enclosing = some t ∧ (p.type t).isInterface = true ∧
      (p.method m).static = false ∧ (p.method m).isInitializer = false ∧
      usable (p.method m).body = true := by
  unfold isDefault usable
  cases h : (p.method m).enclosing with
  | none => simp [h]
  | some => simp [h, and_assoc]

theorem lt_of_isDefault (h : p.isDefault m = true) :
    m.index < p.methods.length := by
  obtain ⟨t, ht, -⟩ := isDefault_iff.mp h
  exact lt_of_enclosing ht

theorem enclosing_of_isDefault (h : p.isDefault m = true) :
    (p.method m).enclosing = some (p.home m) := by
  obtain ⟨t, ht, -⟩ := isDefault_iff.mp h
  simp [home, ht]

theorem isInterface_home (h : p.isDefault m = true) :
    (p.type (p.home m)).isInterface = true := by
  obtain ⟨t, ht, hi, -⟩ := isDefault_iff.mp h
  simpa [home, ht] using hi

theorem not_static_of_isDefault (h : p.isDefault m = true) :
    (p.method m).static = false := by
  obtain ⟨t, -, -, hs, -⟩ := isDefault_iff.mp h
  exact hs

/-- A method is a default method of both programs or of neither, if its declaration is the same. -/
theorem isDefault_congr {q : Program} (henclosing : (q.method m).enclosing = (p.method m).enclosing)
    (hstatic : (q.method m).static = (p.method m).static)
    (hname : (q.method m).name = (p.method m).name)
    (hbody : usable (q.method m).body = usable (p.method m).body)
    (hkind : ∀ t, (q.type t).kind = (p.type t).kind) : q.isDefault m = p.isDefault m := by
  have hiff : q.isDefault m = true ↔ p.isDefault m = true := by
    simp only [isDefault_iff, henclosing, hstatic, hbody, Method.isInitializer, hname,
      DeclaredType.isInterface, hkind]
  cases hq : q.isDefault m <;> cases hp : p.isDefault m <;> simp_all

/-! ## Section 2: Heads -/

/-- The second method is the first up to its body. -/
def SameHead (x y : Method) : Prop := y = { x with body := y.body, native := y.native }

theorem SameHead.refl (x : Method) : SameHead x x := rfl

theorem SameHead.trans {x y z : Method} (h : SameHead x y) (h' : SameHead y z) : SameHead x z := by
  unfold SameHead at *
  rw [h', h]

theorem SameHead.signature {x y : Method} (h : SameHead x y) : y.signature = x.signature := by
  rw [h]
  rfl

/-! ## Section 3: Methods and their types -/

/-- The methods of the program are those of the types `ts`, and each has its type as the enclosing
    one. -/
structure Filed (p : Program) (ts : List TypeRef) : Prop where
  lt : ∀ t ∈ ts, t.index < p.types.length
  owner : ∀ m, m.index < p.methods.length →
    ∃ t ∈ ts, (p.method m).enclosing = some t ∧ m ∈ (p.type t).methods
  member : ∀ t ∈ ts, ∀ m ∈ (p.type t).methods,
    m.index < p.methods.length ∧ (p.method m).enclosing = some t

/-- No two methods of one of the types `ts` have the same signature. -/
def ApartIn (p : Program) (ts : List TypeRef) : Prop :=
  ∀ t ∈ ts, ∀ m ∈ (p.type t).methods, ∀ k ∈ (p.type t).methods,
    (p.method m).signature = (p.method k).signature → m = k

section

variable {p q : Program} {ts : List TypeRef}

theorem Filed.congr (h : p.Filed ts) (htypes : q.types.length = p.types.length)
    (hlength : q.methods.length = p.methods.length)
    (hmethods : ∀ t, (q.type t).methods = (p.type t).methods)
    (henclosing : ∀ m, (q.method m).enclosing = (p.method m).enclosing) : q.Filed ts := by
  refine ⟨?_, ?_, ?_⟩
  · rw [htypes]
    exact h.lt
  · simp only [hlength, henclosing, hmethods]
    exact h.owner
  · simp only [hlength, henclosing, hmethods]
    exact h.member

theorem ApartIn.congr (h : p.ApartIn ts) (hmethods : ∀ t, (q.type t).methods = (p.type t).methods)
    (hsignature : ∀ m, (q.method m).signature = (p.method m).signature) : q.ApartIn ts := by
  unfold ApartIn
  simp only [hmethods, hsignature]
  exact h

variable {t : TypeRef} {x : Method} (hx : x.id = none)

include hx

/-- The methods of a type, when one has been added to some type. -/
theorem mem_methods_withMethod (ht : t.index < p.types.length) {u : TypeRef} :
    m ∈ ((p.withMethod t x).type u).methods ↔ m ∈ (p.type u).methods ∨ (u = t ∧ m = p.next) := by
  by_cases hu : u = t
  · rw [hu, type_withMethod_self hx ht]
    simp
  · rw [type_withMethod_ne hx hu]
    simp [hu]

theorem Filed.withMethod (h : p.Filed ts) (ht : t ∈ ts) : (p.withMethod t x).Filed ts := by
  have hlt := h.lt t ht
  refine ⟨?_, ?_, ?_⟩
  · rw [length_types_withMethod hx]
    exact h.lt
  · intro m hm
    rw [length_methods_withMethod hx, lt_next_iff] at hm
    rcases hm with hm | rfl
    · obtain ⟨u, hu, henclosing, hmem⟩ := h.owner m hm
      refine ⟨u, hu, ?_, (mem_methods_withMethod hx hlt).mpr (.inl hmem)⟩
      rw [method_withMethod_ne hx (ne_next_of_lt hm)]
      exact henclosing
    · refine ⟨t, ht, ?_, (mem_methods_withMethod hx hlt).mpr (.inr ⟨rfl, rfl⟩)⟩
      rw [method_withMethod_self hx]
  · intro u hu m hm
    rw [length_methods_withMethod hx]
    rcases (mem_methods_withMethod hx hlt).mp hm with hm | ⟨rfl, rfl⟩
    · obtain ⟨hmlt, henclosing⟩ := h.member u hu m hm
      rw [method_withMethod_ne hx (ne_next_of_lt hmlt)]
      exact ⟨Nat.lt_succ_of_lt hmlt, henclosing⟩
    · rw [method_withMethod_self hx]
      exact ⟨Nat.lt_succ_self _, rfl⟩

theorem ApartIn.withMethod (h : p.ApartIn ts) (hp : p.Filed ts) (ht : t ∈ ts)
    (hnew : ∀ k ∈ (p.type t).methods, (p.method k).signature ≠ x.signature) :
    (p.withMethod t x).ApartIn ts := by
  have hself : ((p.withMethod t x).method p.next).signature = x.signature := by
    rw [method_withMethod_self hx]
    rfl
  have hold : ∀ u ∈ ts, ∀ m ∈ (p.type u).methods, (p.withMethod t x).method m = p.method m := by
    intro u hu m hm
    exact method_withMethod_ne hx (ne_next_of_lt (hp.member u hu m hm).1)
  intro u hu m hm k hk heq
  rw [mem_methods_withMethod hx (hp.lt t ht)] at hm hk
  -- two old methods, an old and the new one, or twice the new one
  rcases hm with hm | ⟨hut, rfl⟩ <;> rcases hk with hk | ⟨hut', rfl⟩
  · rw [hold u hu m hm, hold u hu k hk] at heq
    exact h u hu m hm k hk heq
  · rw [hold u hu m hm, hself] at heq
    exact absurd heq (hnew m (hut' ▸ hm))
  · rw [hold u hu k hk, hself] at heq
    exact absurd heq.symm (hnew k (hut ▸ hk))
  · rfl

end

/-! ## Section 4: The invariant -/

/-- `t` is the twin of the default method `d`. -/
structure IsTwin (p : Program) (d t : MethodRef) : Prop where
  lt : t.index < p.methods.length
  static : (p.method t).static = true
  name : (p.method t).name = (p.method d).name ++ twinEnding
  enclosing : (p.method t).enclosing = (p.method d).enclosing
  params : (p.method t).params =
    ⟨receiverParam, p.enclosingName d, false, (p.method d).pos⟩ :: (p.method d).params
  /-- The default method passes everything on to the twin. -/
  delegates : (p.method d).body = some (delegatingBody d (p.method d) (p.home d) t)
  native : (p.method d).native = false

/-- Types, methods and arena refer to each other as they should. -/
structure Wired (p : Program) : Prop where
  declared_lt : ∀ t ∈ p.declared, t.index < p.types.length
  attached : ∀ t ∈ p.declared, (p.type t).attached = true
  name_inj : ∀ t ∈ p.declared, ∀ u ∈ p.declared, (p.type t).name = (p.type u).name → t = u
  /-- Every method belongs to a type of the program. -/
  owner : ∀ m, m.index < p.methods.length →
    ∃ t ∈ p.declared, (p.method m).enclosing = some t ∧ m ∈ (p.type t).methods
  member : ∀ t ∈ p.declared, ∀ m ∈ (p.type t).methods,
    m.index < p.methods.length ∧ (p.method m).enclosing = some t
  /-- Every method has a place in the arena. -/
  registered : ∀ m, m.index < p.methods.length →
    ∃ i, (p.method m).id = some i ∧ p.arena[i]? = some m
  statics_lt : ∀ e ∈ p.statics, e.2 < p.arena.length

/-- A program whose default methods can be lowered, or are being lowered. -/
structure Coherent (p : Program) : Prop extends Wired p where
  /-- The table of static implementations keeps default methods apart. -/
  key_inj : ∀ d d', p.isDefault d = true → p.isDefault d' = true → p.key d = p.key d' → d = d'
  twin : ∀ d t, p.isDefault d = true → p.staticOf? d = some t → p.IsTwin d t
  twin_inj : ∀ d d' t, p.isDefault d = true → p.isDefault d' = true → p.staticOf? d = some t →
    p.staticOf? d' = some t → d = d'
  /-- Typed bodies can be relocated before or after their calls are turned over. -/
  placed : ∀ m pos block, (p.method m).body = some (.code pos (some block)) →
    StmtsPlaced p.isDefault block.stmts
  fragment : ∀ m pos func refs, (p.method m).body = some (.native pos func refs) →
    func.isSome = true

/-- With an empty table there are no static implementations. -/
theorem staticOf_of_statics (h : p.statics = []) (m : MethodRef) :
    p.staticOf? m = none := by
  rw [staticOf?, h]
  rfl

/-- A key without static implementation has no entry in the table. -/
theorem lookup_statics_of_lt (hs : ∀ e ∈ p.statics, e.2 < p.arena.length)
    (h : p.staticOf? d = none) : p.statics.lookup (p.key d) = none := by
  cases hl : p.statics.lookup (p.key d) with
  | none => rfl
  | some i =>
    obtain ⟨xs, ys, hsplit, -⟩ := List.lookup_eq_some_iff.mp hl
    have hi := hs (p.key d, i) (by rw [hsplit]; simp)
    rw [staticOf?, hl, Option.bind_some, List.getElem?_eq_none_iff] at h
    exact absurd hi (Nat.not_lt.mpr h)

namespace Wired

variable {p : Program} (hp : p.Wired)

include hp

theorem filed : p.Filed p.declared := ⟨hp.declared_lt, hp.owner, hp.member⟩

theorem home_declared (hm : m.index < p.methods.length) :
    p.home m ∈ p.declared ∧ (p.method m).enclosing = some (p.home m) ∧
      m ∈ (p.type (p.home m)).methods := by
  obtain ⟨t, ht, henclosing, hmem⟩ := hp.owner m hm
  have hhome : p.home m = t := by simp [home, henclosing]
  rw [hhome]
  exact ⟨ht, henclosing, hmem⟩

theorem lookup_statics (h : p.staticOf? d = none) :
    p.statics.lookup (p.key d) = none :=
  lookup_statics_of_lt hp.statics_lt h

end Wired

/-- A twin is static and so no default method. -/
theorem Coherent.twin_not_default (hp : p.Coherent) {t : MethodRef} (hd : p.isDefault d = true)
    (h : p.staticOf? d = some t) : p.isDefault t = false := by
  have hstatic := (hp.twin d t hd h).static
  cases ht : p.isDefault t with
  | false => rfl
  | true => rw [not_static_of_isDefault ht] at hstatic; cases hstatic

/-- The methods that the default methods of a program are turned over to. -/
def turnover (p : Program) : Turnover := ⟨p.isDefault, fun d => (p.staticOf? d).getD default⟩

/-- The default methods among some call targets have twins. -/
def Served (p : Program) (targets : List MethodRef) : Prop :=
  ∀ d ∈ targets, p.isDefault d = true → (p.staticOf? d).isSome = true

namespace Served

variable {p : Program}

theorem nil : p.Served [] := by
  intro d hd
  cases hd

theorem append {xs ys : List MethodRef} (hx : p.Served xs) (hy : p.Served ys) :
    p.Served (xs ++ ys) := by
  intro d hd
  rcases List.mem_append.mp hd with hd | hd
  · exact hx d hd
  · exact hy d hd

end Served

/-! ## Section 5: Extension -/

/-- The second program declares what the first declares, and has at least its methods and twins. -/
structure Extends (p q : Program) : Prop where
  declared : q.declared = p.declared
  length_types : q.types.length = p.types.length
  type : ∀ t, ∃ new, q.type t = { p.type t with methods := (p.type t).methods ++ new }
  length_methods : p.methods.length ≤ q.methods.length
  method : ∀ m, m.index < p.methods.length → SameHead (p.method m) (q.method m)
  isDefault : q.isDefault = p.isDefault
  staticOf : ∀ d t, p.isDefault d = true → p.staticOf? d = some t → q.staticOf? d = some t

namespace Extends

theorem refl (p : Program) : p.Extends p where
  declared := rfl
  length_types := rfl
  type t := ⟨[], by simp⟩
  length_methods := Nat.le_refl _
  method m _ := SameHead.refl _
  isDefault := rfl
  staticOf _ _ _ h := h

variable {p q r : Program}

theorem trans (h : p.Extends q) (h' : q.Extends r) : p.Extends r where
  declared := h'.declared.trans h.declared
  length_types := h'.length_types.trans h.length_types
  type t := by
    obtain ⟨new, hnew⟩ := h.type t
    obtain ⟨newer, hnewer⟩ := h'.type t
    exact ⟨new ++ newer, by simp [hnewer, hnew]⟩
  length_methods := Nat.le_trans h.length_methods h'.length_methods
  method m hm := (h.method m hm).trans (h'.method m (Nat.lt_of_lt_of_le hm h.length_methods))
  isDefault := h'.isDefault.trans h.isDefault
  staticOf d t hd ht := h'.staticOf d t (by rw [h.isDefault]; exact hd) (h.staticOf d t hd ht)

variable (h : p.Extends q)

include h

theorem typeName (t : TypeRef) : (q.type t).name = (p.type t).name := by
  obtain ⟨new, hnew⟩ := h.type t
  rw [hnew]

theorem typeKind (t : TypeRef) : (q.type t).kind = (p.type t).kind := by
  obtain ⟨new, hnew⟩ := h.type t
  rw [hnew]

theorem mem_methods {t : TypeRef} (hm : m ∈ (p.type t).methods) :
    m ∈ (q.type t).methods := by
  obtain ⟨new, hnew⟩ := h.type t
  rw [hnew]
  exact List.mem_append_left _ hm

theorem enclosing (hm : m.index < p.methods.length) :
    (q.method m).enclosing = (p.method m).enclosing := by
  rw [h.method m hm]

theorem home (hm : m.index < p.methods.length) : q.home m = p.home m := by
  unfold Program.home
  rw [h.enclosing hm]

theorem enclosingName (hm : m.index < p.methods.length) :
    q.enclosingName m = p.enclosingName m := by
  unfold Program.enclosingName
  rw [h.enclosing hm]
  cases (p.method m).enclosing with
  | none => rfl
  | some t => exact h.typeName t

theorem signature (hm : m.index < p.methods.length) :
    (q.method m).signature = (p.method m).signature :=
  (h.method m hm).signature

theorem key (hm : m.index < p.methods.length) : q.key m = p.key m := by
  unfold Program.key
  rw [h.enclosingName hm, h.signature hm]

/-- Keys keep the default methods apart as they did before. -/
theorem key_inj (hp : p.Coherent) (d d' : MethodRef) (hd : q.isDefault d = true)
    (hd' : q.isDefault d' = true) (hkey : q.key d = q.key d') : d = d' := by
  rw [h.isDefault] at hd hd'
  rw [h.key (lt_of_isDefault hd), h.key (lt_of_isDefault hd')] at hkey
  exact hp.key_inj d d' hd hd' hkey

theorem memberText (hm : m.index < p.methods.length) :
    q.memberText m = p.memberText m := by
  unfold Program.memberText
  rw [h.enclosingName hm, h.method m hm]

/-- Trees whose default methods have twins are turned over alike from now on. -/
theorem turnover_twin {targets : List MethodRef} (hs : p.Served targets) :
    ∀ d ∈ targets, p.turnover.isDefault d = true → q.turnover.twin d = p.turnover.twin d := by
  intro d hd hdefault
  obtain ⟨t, ht⟩ := Option.isSome_iff_exists.mp (hs d hd hdefault)
  simp [turnover, ht, h.staticOf d t hdefault ht]

theorem served {targets : List MethodRef} (hs : p.Served targets) : q.Served targets := by
  intro d hd hdefault
  rw [h.isDefault] at hdefault
  obtain ⟨t, ht⟩ := Option.isSome_iff_exists.mp (hs d hd hdefault)
  rw [h.staticOf d t hdefault ht]
  rfl

end Extends

end DefaultLowering.Program
