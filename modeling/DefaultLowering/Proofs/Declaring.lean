import DefaultLowering.Description.Loader
import DefaultLowering.Proofs.Coherence
import Mathlib.Data.List.Forall2

/-!
# Declared programs

The first two rounds of loading declare types with their methods, and link types to their supertypes.
What they leave is a program without bodies and without static implementations in which types, methods
and arena fit each other, and no two methods of a type have the same signature.

- `Drafted`: the invariant, for a program in which the methods of one more type are being declared;
- `Outlines`, `Listed`: the types of the program are the described ones, in their order, with the
  described methods;
- `declareTypes_drafted`, `linkTypes_drafted`: the two rounds establish and keep the invariant.
-/

namespace DefaultLowering

theorem exists_of_forall₂_right {α β : Type} {R : α → β → Prop} {xs : List α} {ys : List β}
    (h : List.Forall₂ R xs ys) {y : β} (hy : y ∈ ys) : ∃ x ∈ xs, R x y := by
  induction h with
  | nil => cases hy
  | cons hxy _ ih =>
    rcases List.mem_cons.mp hy with rfl | hy
    · exact ⟨_, List.mem_cons_self, hxy⟩
    · obtain ⟨x, hx, hR⟩ := ih hy
      exact ⟨x, List.mem_cons_of_mem _ hx, hR⟩

theorem exists_of_forall₂_left {α β : Type} {R : α → β → Prop} {xs : List α} {ys : List β}
    (h : List.Forall₂ R xs ys) {x : α} (hx : x ∈ xs) : ∃ y ∈ ys, R x y :=
  exists_of_forall₂_right (R := flip R) h.flip hx

end DefaultLowering

namespace DefaultLowering.Program

variable {p : Program}

/-! ## Section 1: The invariant -/

/-- A program without bodies; the methods of the types `pending` are still being declared. -/
structure Drafted (p : Program) (pending : List TypeRef) : Prop where
  lt : ∀ t ∈ p.declared ++ pending, t.index < p.types.length
  attached : ∀ t ∈ p.declared, (p.type t).attached = true
  unattached : ∀ t ∈ pending, (p.type t).attached = false
  name_inj : ∀ t ∈ p.declared, ∀ u ∈ p.declared, (p.type t).name = (p.type u).name → t = u
  /-- Every type of the program is found under its name. -/
  named : ∀ t ∈ p.declared, (p.typeNamed (p.type t).name).isSome = true
  byName : ∀ name t, p.typeNamed name = some t → t ∈ p.declared
  owner : ∀ m, m.index < p.methods.length →
    ∃ t ∈ p.declared ++ pending, (p.method m).enclosing = some t ∧ m ∈ (p.type t).methods
  member : ∀ t ∈ p.declared ++ pending, ∀ m ∈ (p.type t).methods,
    m.index < p.methods.length ∧ (p.method m).enclosing = some t
  /-- An index in the arena is the place of the method there. -/
  ids : ∀ m i, (p.method m).id = some i → p.arena[i]? = some m
  registered : ∀ t ∈ p.declared, ∀ m ∈ (p.type t).methods, (p.method m).id.isSome = true
  distinct : ∀ t ∈ p.declared ++ pending, ∀ m ∈ (p.type t).methods, ∀ k ∈ (p.type t).methods,
    (p.method m).signature = (p.method k).signature → m = k
  bodies : ∀ m, (p.method m).body = none
  statics : p.statics = []
  /-- Nothing is listed twice. -/
  types_nodup : (p.declared ++ pending).Nodup
  methods_nodup : ∀ t ∈ p.declared ++ pending, (p.type t).methods.Nodup

theorem Drafted.filed {pending : List TypeRef} (h : p.Drafted pending) :
    p.Filed (p.declared ++ pending) :=
  ⟨h.lt, h.owner, h.member⟩

theorem Drafted.wired (h : p.Drafted []) : p.Wired := by
  have hfiled := h.filed
  rw [List.append_nil] at hfiled
  refine ⟨hfiled.lt, h.attached, h.name_inj, hfiled.owner, hfiled.member, ?_, ?_⟩
  · intro m hm
    obtain ⟨t, ht, -, hmem⟩ := hfiled.owner m hm
    obtain ⟨i, hi⟩ := Option.isSome_iff_exists.mp (h.registered t ht m hmem)
    exact ⟨i, hi, h.ids m i hi⟩
  · intro e he
    rw [h.statics] at he
    cases he

theorem drafted_empty : Drafted {} [] := by
  have hnone : ∀ m : MethodRef, ({} : Program).method m = default :=
    fun m => method_of_le (Nat.zero_le _)
  constructor
  case byName => simp [typeNamed]
  case ids =>
    intro m i hi
    rw [hnone] at hi
    cases hi
  case bodies =>
    intro m
    rw [hnone]
    rfl
  all_goals simp

/-! ## Section 2: A new type -/

section newType

variable {p : Program} {x : DeclaredType}

theorem type_newType_self : (p.newType x).2.type ⟨p.types.length⟩ = x := by
  simp [type, newType]

theorem type_newType_of_lt {t : TypeRef} (h : t.index < p.types.length) :
    (p.newType x).2.type t = p.type t := by
  simp [type, newType, List.getElem?_append_left h]

theorem Drafted.newType (h : p.Drafted []) (hmethods : x.methods = [])
    (hattached : x.attached = false) : (p.newType x).2.Drafted [⟨p.types.length⟩] := by
  have hall := List.append_nil p.declared
  have hlt : ∀ t ∈ p.declared, t.index < p.types.length :=
    fun t ht => h.lt t (by rw [hall]; exact ht)
  have hold : ∀ t ∈ p.declared, (p.newType x).2.type t = p.type t :=
    fun t ht => type_newType_of_lt (hlt t ht)
  have hmem : ∀ t, t ∈ (p.newType x).2.declared ++ [⟨p.types.length⟩] →
      t ∈ p.declared ∨ t = ⟨p.types.length⟩ := by
    intro t ht
    rwa [List.mem_append, List.mem_singleton] at ht
  -- the old types are not touched, and the new one has no methods yet
  refine { h with
    lt := ?lt, attached := ?attached, unattached := ?unattached, name_inj := ?name_inj
    named := ?named, owner := ?owner, member := ?member, registered := ?registered
    distinct := ?distinct, types_nodup := ?types_nodup, methods_nodup := ?methods_nodup }
  case lt =>
    intro t ht
    have hlength : (p.newType x).2.types.length = p.types.length + 1 := by simp [Program.newType]
    rw [hlength]
    rcases hmem t ht with ht | rfl
    · exact Nat.lt_succ_of_lt (hlt t ht)
    · exact Nat.lt_succ_self _
  case attached =>
    intro t ht
    rw [hold t ht]
    exact h.attached t ht
  case unattached =>
    intro t ht
    rw [List.mem_singleton.mp ht, type_newType_self]
    exact hattached
  case name_inj =>
    intro t ht u hu
    rw [hold t ht, hold u hu]
    exact h.name_inj t ht u hu
  case named =>
    intro t ht
    rw [hold t ht]
    exact h.named t ht
  case owner =>
    intro m hm
    obtain ⟨t, ht, henclosing, hmem⟩ := h.owner m hm
    rw [hall] at ht
    refine ⟨t, List.mem_append_left _ ht, henclosing, ?_⟩
    rw [hold t ht]
    exact hmem
  case member =>
    intro t ht m hm
    rcases hmem t ht with ht | rfl
    · rw [hold t ht] at hm
      exact h.member t (by rw [hall]; exact ht) m hm
    · rw [type_newType_self, hmethods] at hm
      cases hm
  case registered =>
    intro t ht m hm
    rw [hold t ht] at hm
    exact h.registered t ht m hm
  case distinct =>
    intro t ht m hm
    rcases hmem t ht with ht | rfl
    · rw [hold t ht] at hm ⊢
      exact h.distinct t (by rw [hall]; exact ht) m hm
    · rw [type_newType_self, hmethods] at hm
      cases hm
  case types_nodup =>
    have hbefore := h.types_nodup
    rw [hall] at hbefore
    refine List.nodup_append.mpr ⟨hbefore, by simp, ?_⟩
    intro t ht u hu heq
    rw [heq, List.mem_singleton.mp hu] at ht
    exact Nat.lt_irrefl _ (hlt _ ht)
  case methods_nodup =>
    intro t ht
    rcases hmem t ht with ht | rfl
    · rw [hold t ht]
      exact h.methods_nodup t (by rw [hall]; exact ht)
    · rw [type_newType_self, hmethods]
      exact List.nodup_nil

end newType

/-! ## Section 3: A new method of the pending type -/

section newMethod

variable {p : Program} {t : TypeRef} {x : Method}

/-- The pending type is not in the program yet. -/
theorem Drafted.ne_pending (h : p.Drafted [t]) {u : TypeRef} (hu : u ∈ p.declared) : u ≠ t := by
  rintro rfl
  have hun := h.unattached u (List.mem_singleton_self u)
  rw [h.attached u hu] at hun
  cases hun

theorem Drafted.withMethod (h : p.Drafted [t]) (hx : x.id = none) (hbody : x.body = none)
    (hsignature : p.ownMethod? t x.signature = none) : (p.withMethod t x).Drafted [t] := by
  have hpending : t ∈ p.declared ++ [t] := by simp
  have hun := h.unattached t (List.mem_singleton_self t)
  have hdeclared := declared_withMethod (p := p) (t := t) hx
  have hold : ∀ u ∈ p.declared, (p.withMethod t x).type u = p.type u :=
    fun u hu => type_withMethod_ne hx (h.ne_pending hu)
  have hnew : (p.withMethod t x).method p.next = { x with enclosing := some t, id := none } := by
    rw [method_withMethod_self hx, hun]
    rfl
  have hnot : ∀ m ∈ (p.type t).methods, (p.method m).signature ≠ x.signature := by
    intro m hm heq
    have hsome := List.find?_eq_none.mp hsignature m hm
    simp [heq] at hsome
  have hfiled := h.filed.withMethod hx hpending
  have hdistinct := ApartIn.withMethod hx h.distinct h.filed hpending hnot
  rw [← hdeclared] at hfiled hdistinct
  -- the rest is about the types in front, which are not touched
  refine { hfiled with
    attached := ?attached, unattached := ?unattached, name_inj := ?name_inj, named := ?named
    byName := ?byName, ids := ?ids, registered := ?registered, distinct := hdistinct
    bodies := ?bodies, statics := ?statics, types_nodup := ?types_nodup
    methods_nodup := ?methods_nodup }
  case attached =>
    rw [hdeclared]
    intro u hu
    rw [hold u hu]
    exact h.attached u hu
  case unattached =>
    intro u hu
    rw [List.mem_singleton.mp hu, type_withMethod_self hx (h.lt t hpending)]
    exact hun
  case name_inj =>
    rw [hdeclared]
    intro u hu v hv
    rw [hold u hu, hold v hv]
    exact h.name_inj u hu v hv
  case named =>
    rw [hdeclared]
    intro u hu
    rw [hold u hu, typeNamed, byName_withMethod hx]
    exact h.named u hu
  case byName =>
    rw [hdeclared]
    intro name u hu
    rw [typeNamed, byName_withMethod hx] at hu
    exact h.byName name u hu
  case ids =>
    intro m i hi
    rw [arena_withMethod_unattached hx hun]
    by_cases hnext : m = p.next
    · rw [hnext, hnew] at hi
      cases hi
    · rw [method_withMethod_ne hx hnext] at hi
      exact h.ids m i hi
  case registered =>
    rw [hdeclared]
    intro u hu m hm
    rw [hold u hu] at hm
    have hlt := (h.member u (List.mem_append_left _ hu) m hm).1
    rw [method_withMethod_ne hx (ne_next_of_lt hlt)]
    exact h.registered u hu m hm
  case bodies =>
    intro m
    by_cases hnext : m = p.next
    · rw [hnext, hnew]
      exact hbody
    · rw [method_withMethod_ne hx hnext]
      exact h.bodies m
  case statics =>
    rw [statics_withMethod hx]
    exact h.statics
  case types_nodup =>
    rw [hdeclared]
    exact h.types_nodup
  case methods_nodup =>
    rw [hdeclared]
    intro u hu
    have hbefore := h.methods_nodup u hu
    by_cases hut : u = t
    · rw [hut, type_withMethod_self hx (h.lt t hpending)]
      rw [hut] at hbefore
      refine List.nodup_append.mpr ⟨hbefore, by simp, ?_⟩
      intro m hm k hk
      rw [List.mem_singleton.mp hk]
      exact ne_next_of_lt (h.member t hpending m hm).1
    · rw [type_withMethod_ne hx hut]
      exact hbefore

end newMethod

/-! ## Section 4: Places in the arena -/

/-- The programs differ in the arena and in what methods know of it. -/
structure SameButIds (p q : Program) : Prop where
  types : q.types = p.types
  declared : q.declared = p.declared
  byName : q.byName = p.byName
  statics : q.statics = p.statics
  length : q.methods.length = p.methods.length
  method : ∀ m, ∃ i, q.method m = { p.method m with id := i }

namespace SameButIds

variable {p q r : Program}

theorem trans (h : p.SameButIds q) (h' : q.SameButIds r) : p.SameButIds r := by
  refine ⟨h'.types.trans h.types, h'.declared.trans h.declared, h'.byName.trans h.byName,
    h'.statics.trans h.statics, h'.length.trans h.length, ?_⟩
  intro m
  obtain ⟨i, hi⟩ := h.method m
  obtain ⟨j, hj⟩ := h'.method m
  exact ⟨j, by rw [hj, hi]⟩

variable (h : p.SameButIds q)

include h

theorem type_eq (t : TypeRef) : q.type t = p.type t := by
  simp only [type, h.types]

theorem typeNamed_eq (name : String) : q.typeNamed name = p.typeNamed name := by
  simp only [typeNamed, h.byName]

theorem enclosing (m : MethodRef) : (q.method m).enclosing = (p.method m).enclosing := by
  obtain ⟨i, hi⟩ := h.method m
  rw [hi]

theorem signature (m : MethodRef) : (q.method m).signature = (p.method m).signature := by
  obtain ⟨i, hi⟩ := h.method m
  rw [hi]
  rfl

theorem body (m : MethodRef) : (q.method m).body = (p.method m).body := by
  obtain ⟨i, hi⟩ := h.method m
  rw [hi]

end SameButIds

/-- Every index in the arena is right, and the given methods have one. -/
def Numbered (p : Program) (ms : List MethodRef) : Prop :=
  (∀ m i, (p.method m).id = some i → p.arena[i]? = some m) ∧
    ∀ m ∈ ms, (p.method m).id.isSome = true

theorem register_numbered {ms : List MethodRef} (h : p.Numbered ms) {m : MethodRef}
    (hlt : m.index < p.methods.length) :
    p.SameButIds (p.register m) ∧ (p.register m).Numbered (ms ++ [m]) ∧
      ∀ k, k ≠ m → (p.register m).method k = p.method k := by
  unfold register
  by_cases hid : (p.method m).id.isSome = true
  · -- a method keeps the place that it has
    rw [if_pos hid]
    refine ⟨⟨rfl, rfl, rfl, rfl, rfl, fun k => ⟨_, rfl⟩⟩, ⟨h.1, ?_⟩, fun _ _ => rfl⟩
    intro k hk
    rcases List.mem_append.mp hk with hk | hk
    · exact h.2 k hk
    · rw [List.mem_singleton.mp hk]
      exact hid
  · rw [if_neg hid]
    let q := p.updateMethod m fun method => { method with id := some p.arena.length }
    have hself : q.method m = { p.method m with id := some p.arena.length } :=
      method_updateMethod_self _ hlt
    have hother : ∀ k, k ≠ m → q.method k = p.method k :=
      fun k hk => method_updateMethod_ne _ hk
    refine ⟨⟨rfl, rfl, rfl, rfl, length_methods_updateMethod .., ?_⟩, ⟨?_, ?_⟩, hother⟩
    · intro k
      by_cases hk : k = m
      · exact ⟨_, hk ▸ hself⟩
      · exact ⟨_, hother k hk⟩
    · intro k i hi
      change (q.method k).id = some i at hi
      change (p.arena ++ [m])[i]? = some k
      by_cases hk : k = m
      · rw [hk, hself] at hi
        cases hi
        simp [hk]
      · rw [hother k hk] at hi
        have hold := h.1 k i hi
        rw [List.getElem?_append_left (List.getElem?_eq_some_iff.mp hold).1]
        exact hold
    · intro k hk
      change (q.method k).id.isSome = true
      by_cases hkm : k = m
      · rw [hkm, hself]
        rfl
      · rw [hother k hkm]
        rcases List.mem_append.mp hk with hk | hk
        · exact h.2 k hk
        · exact absurd (List.mem_singleton.mp hk) hkm

theorem foldl_register {ms done : List MethodRef} (h : p.Numbered done)
    (hlt : ∀ m ∈ ms, m.index < p.methods.length) :
    p.SameButIds (ms.foldl register p) ∧ (ms.foldl register p).Numbered (done ++ ms) ∧
      ∀ k, k ∉ ms → (ms.foldl register p).method k = p.method k := by
  induction ms generalizing p done with
  | nil =>
    rw [List.append_nil]
    exact ⟨⟨rfl, rfl, rfl, rfl, rfl, fun k => ⟨_, rfl⟩⟩, h, fun _ _ => rfl⟩
  | cons m ms ih =>
    rw [List.forall_mem_cons] at hlt
    obtain ⟨hsame₁, hnumbered₁, hother₁⟩ := register_numbered h hlt.1
    obtain ⟨hsame, hnumbered, hother⟩ := ih hnumbered₁ (by rw [hsame₁.length]; exact hlt.2)
    rw [List.append_cons]
    refine ⟨hsame₁.trans hsame, hnumbered, ?_⟩
    intro k hk
    rw [List.mem_cons, not_or] at hk
    exact (hother k hk.2).trans (hother₁ k hk.1)

/-! ## Section 5: The pending type joins the program -/

/-- The first stage of joining, before the methods have places in the arena. -/
def joined (p : Program) (t : TypeRef) : Program :=
  { p.updateType t fun type => { type with attached := true } with
    declared := p.declared ++ [t], byName := p.byName ++ [((p.type t).name, t)] }

section joining

variable {p q : Program} {t : TypeRef}

theorem addType_eq (hok : p.addType t = .ok q) :
    p.typeNamed (p.type t).name = none ∧
      q = ((p.joined t).type t).methods.foldl register (p.joined t) := by
  unfold addType at hok
  by_cases hname : (p.typeNamed (p.type t).name).isSome = true
  · simp [hname] at hok
  · by_cases hattached : (p.type t).attached = true
    · simp [hname, hattached] at hok
    · simp only [hname, hattached, Bool.false_eq_true, if_false, Except.ok.injEq] at hok
      exact ⟨by simpa using hname, hok.symm⟩

theorem type_joined_self (hlt : t.index < p.types.length) :
    (p.joined t).type t = { p.type t with attached := true } :=
  type_updateType_self _ hlt

theorem type_joined_ne {u : TypeRef} (h : u ≠ t) : (p.joined t).type u = p.type u :=
  type_updateType_ne _ h

/-- Joining changes no more of a type than that it belongs to the program. -/
theorem type_joined (hlt : t.index < p.types.length) (u : TypeRef) :
    ∃ a, (p.joined t).type u = { p.type u with attached := a } := by
  by_cases hu : u = t
  · exact ⟨true, by rw [hu, type_joined_self hlt]⟩
  · exact ⟨(p.type u).attached, type_joined_ne hu⟩

theorem typeNamed_joined (name : String) : (p.joined t).typeNamed name =
    (p.typeNamed name).or (if name = (p.type t).name then some t else none) := by
  unfold typeNamed
  change (p.byName ++ [((p.type t).name, t)]).lookup name = _
  rw [List.lookup_append]
  by_cases hn : name = (p.type t).name
  · simp [hn]
  · simp [List.lookup_cons, hn, beq_eq_false_iff_ne.mpr hn]

/-- A type that joins has a name that no type has. -/
theorem Drafted.name_inj_pending (h : p.Drafted [t]) (hname : p.typeNamed (p.type t).name = none) :
    ∀ u ∈ p.declared ++ [t], ∀ v ∈ p.declared ++ [t], (p.type u).name = (p.type v).name → u = v := by
  have hother : ∀ w ∈ p.declared, (p.type w).name ≠ (p.type t).name := by
    intro w hw hwt
    have hnamed := h.named w hw
    rw [hwt, hname] at hnamed
    cases hnamed
  intro u hu v hv heq
  rw [List.mem_append, List.mem_singleton] at hu hv
  rcases hu with hu | rfl <;> rcases hv with hv | rfl
  · exact h.name_inj u hu v hv heq
  · exact absurd heq (hother u hu)
  · exact absurd heq.symm (hother v hv)
  · rfl

/-- What joining does, all methods of the type being registered. -/
theorem Drafted.addType_same (h : p.Drafted [t]) (hok : p.addType t = .ok q) :
    (p.joined t).SameButIds q ∧ q.Numbered (p.declaredMethods ++ (p.type t).methods) := by
  obtain ⟨-, rfl⟩ := addType_eq hok
  have hpending : t ∈ p.declared ++ [t] := by simp
  have hself : ((p.joined t).type t).methods = (p.type t).methods := by
    rw [type_joined_self (h.lt t hpending)]
  have hnumbered : (p.joined t).Numbered p.declaredMethods := by
    refine ⟨h.ids, ?_⟩
    intro m hm
    obtain ⟨u, hu, hm⟩ := List.mem_flatMap.mp hm
    exact h.registered u hu m hm
  rw [hself]
  obtain ⟨hsame, hall, -⟩ :=
    foldl_register hnumbered fun m hm => (h.member t hpending m hm).1
  exact ⟨hsame, hall⟩

theorem Drafted.addType (h : p.Drafted [t]) (hok : p.addType t = .ok q) :
    q.Drafted [] ∧ q.declared = p.declared ++ [t] ∧
      (∀ u, ∃ a, q.type u = { p.type u with attached := a }) ∧
      ∀ m, ∃ i, q.method m = { p.method m with id := i } := by
  obtain ⟨hname, -⟩ := addType_eq hok
  obtain ⟨hsame, hids, hregistered⟩ := h.addType_same hok
  have hpending : t ∈ p.declared ++ [t] := by simp
  have hlt := h.lt t hpending
  have hdeclared : q.declared = p.declared ++ [t] := hsame.declared
  have htype : ∀ u, ∃ a, q.type u = { p.type u with attached := a } := by
    intro u
    rw [hsame.type_eq]
    exact type_joined hlt u
  have hkept : ∀ u, (q.type u).methods = (p.type u).methods ∧ (q.type u).name = (p.type u).name := by
    intro u
    obtain ⟨a, ha⟩ := htype u
    rw [ha]
    exact ⟨rfl, rfl⟩
  have hlength : q.types.length = p.types.length := by
    rw [hsame.types]
    exact length_types_updateType ..
  have hfiled := h.filed.congr hlength hsame.length (fun u => (hkept u).1) hsame.enclosing
  have hdistinct := ApartIn.congr h.distinct (fun u => (hkept u).1) hsame.signature
  rw [← hdeclared, ← List.append_nil q.declared] at hfiled hdistinct
  refine ⟨?_, hdeclared, htype, hsame.method⟩
  -- types keep their methods and names; only ids are new
  refine { hfiled with
    attached := ?attached, unattached := nofun, name_inj := ?name_inj, named := ?named
    byName := ?byName, ids := hids, registered := ?registered, distinct := hdistinct
    bodies := ?bodies, statics := ?statics, types_nodup := ?types_nodup
    methods_nodup := ?methods_nodup }
  case attached =>
    rw [hdeclared]
    intro u hu
    rw [hsame.type_eq]
    rw [List.mem_append, List.mem_singleton] at hu
    rcases hu with hu | rfl
    · rw [type_joined_ne (h.ne_pending hu)]
      exact h.attached u hu
    · rw [type_joined_self hlt]
  case name_inj =>
    simp only [hdeclared, (hkept _).2]
    exact h.name_inj_pending hname
  case named =>
    rw [hdeclared]
    intro u hu
    rw [(hkept u).2, hsame.typeNamed_eq, typeNamed_joined, Option.isSome_or, Bool.or_eq_true]
    rw [List.mem_append, List.mem_singleton] at hu
    rcases hu with hu | rfl
    · exact .inl (h.named u hu)
    · exact .inr (by simp)
  case byName =>
    intro name u hu
    rw [hdeclared]
    rw [hsame.typeNamed_eq, typeNamed_joined, Option.or_eq_some_iff] at hu
    rcases hu with hu | ⟨-, hu⟩
    · exact List.mem_append_left _ (h.byName name u hu)
    · split at hu
      · cases hu
        exact hpending
      · cases hu
  case registered =>
    rw [hdeclared]
    intro u hu m hm
    rw [(hkept u).1] at hm
    refine hregistered m ?_
    rw [List.mem_append, List.mem_singleton] at hu
    rcases hu with hu | rfl
    · exact List.mem_append_left _ (List.mem_flatMap.mpr ⟨u, hu, hm⟩)
    · exact List.mem_append_right _ hm
  case bodies =>
    intro m
    rw [hsame.body]
    exact h.bodies m
  case statics =>
    rw [hsame.statics]
    exact h.statics
  case types_nodup =>
    rw [List.append_nil, hdeclared]
    exact h.types_nodup
  case methods_nodup =>
    rw [List.append_nil, hdeclared]
    intro u hu
    rw [(hkept u).1]
    exact h.methods_nodup u hu

end joining

end DefaultLowering.Program

namespace DefaultLowering.Description

open Program

variable {file : String} {p q : Program} {t : TypeRef} {d : TypeDecl}

/-! ## Section 6: The rounds of declaring -/

theorem bind_eq_ok {ε α β : Type} {x : Except ε α} {f : α → Except ε β} {b : β} :
    (x >>= f) = .ok b ↔ ∃ a, x = .ok a ∧ f a = .ok b := by
  cases x with
  | error => simp [bind, Except.bind]
  | ok => simp [bind, Except.bind]

theorem exists_of_isOk {ε α : Type} {x : Except ε α} (h : x.isOk = true) : ∃ a, x = .ok a := by
  cases x with
  | error => cases h
  | ok a => exact ⟨a, rfl⟩

/-- What comes behind a check has passed it. -/
theorem guard_ok {ε α β : Type} {c : Prop} [Decidable c] {e : ε} {k : α → Except ε β}
    {rest : Except ε β} {b : β} (h : (if c then throw e >>= k else rest) = .ok b) :
    ¬ c ∧ rest = .ok b := by
  by_cases hc : c
  · rw [if_pos hc] at h
    cases h
  · rw [if_neg hc] at h
    exact ⟨hc, h⟩

/-- The method has the head that is described. -/
structure HeadOf (x : DefaultLowering.Method) (d : Method) : Prop where
  name : x.name = d.name
  static : x.static = d.static
  native : x.native = d.native.isSome
  params : x.params.map (fun y => (y.name, y.type)) = d.params.map fun y => (y.name, y.type)

theorem buildParams_ok {name : String} {seen : List String} {ds : List Param}
    {xs : List DefaultLowering.Param} (h : buildParams file name seen ds = .ok xs) :
    xs.map (fun y => (y.name, y.type)) = ds.map fun y => (y.name, y.type) := by
  induction ds generalizing seen xs with
  | nil =>
    cases h
    rfl
  | cons d ds ih =>
    unfold buildParams at h
    obtain ⟨-, h⟩ := guard_ok h
    obtain ⟨-, h⟩ := guard_ok h
    obtain ⟨rest, hrest, h⟩ := bind_eq_ok.mp h
    cases h
    rw [List.map_cons, List.map_cons, ih hrest]

theorem buildMethod_ok {d : Method} {x : DefaultLowering.Method} (h : buildMethod file d = .ok x) :
    x.id = none ∧ x.body = none ∧ HeadOf x d := by
  unfold buildMethod at h
  obtain ⟨-, h⟩ := guard_ok h
  obtain ⟨-, h⟩ := guard_ok h
  obtain ⟨-, h⟩ := guard_ok h
  obtain ⟨params, hparams, h⟩ := bind_eq_ok.mp h
  cases h
  exact ⟨rfl, rfl, rfl, rfl, rfl, buildParams_ok hparams⟩

/-- The methods have the heads that are described, in the same order. -/
def Heads (p : Program) (ms : List MethodRef) (ds : List Method) : Prop :=
  List.Forall₂ (fun m d => HeadOf (p.method m) d) ms ds

theorem Heads.kept {ms : List MethodRef} {ds : List Method} (h : Heads p ms ds)
    (hsame : ∀ m ∈ ms, ∀ d, HeadOf (p.method m) d → HeadOf (q.method m) d) : Heads q ms ds := by
  have hboth := (List.forall₂_and_left ms ds).mpr ⟨hsame, h⟩
  exact hboth.imp fun _ d hm => hm.1 d hm.2

/-- The second program is the first with more methods in the type `t`. -/
structure MoreMethods (t : TypeRef) (p q : Program) : Prop where
  declared : q.declared = p.declared
  byName : q.byName = p.byName
  other : ∀ u, u ≠ t → q.type u = p.type u
  self : ∃ ms, q.type t = { p.type t with methods := ms }
  length : p.methods.length ≤ q.methods.length
  method : ∀ m, m.index < p.methods.length → q.method m = p.method m

theorem MoreMethods.trans {r : Program} (h : MoreMethods t p q) (h' : MoreMethods t q r) :
    MoreMethods t p r := by
  refine ⟨h'.declared.trans h.declared, h'.byName.trans h.byName, ?_, ?_,
    Nat.le_trans h.length h'.length, ?_⟩
  · intro u hu
    rw [h'.other u hu, h.other u hu]
  · obtain ⟨ms, hms⟩ := h.self
    obtain ⟨ms', hms'⟩ := h'.self
    exact ⟨ms', by rw [hms', hms]⟩
  · intro m hm
    rw [h'.method m (Nat.lt_of_lt_of_le hm h.length), h.method m hm]

theorem moreMethods_withMethod {x : DefaultLowering.Method} (hx : x.id = none)
    (ht : t.index < p.types.length) : MoreMethods t p (p.withMethod t x) := by
  refine ⟨declared_withMethod hx, byName_withMethod hx, fun u hu => type_withMethod_ne hx hu,
    ⟨_, type_withMethod_self hx ht⟩, ?_, fun m hm => method_withMethod_ne hx (ne_next_of_lt hm)⟩
  rw [length_methods_withMethod hx]
  omega

theorem declareMethods_drafted {name : String} {ds done : List Method} (h : p.Drafted [t])
    (hdone : Heads p (p.type t).methods done) (hok : declareMethods file t name ds p = .ok q) :
    q.Drafted [t] ∧ MoreMethods t p q ∧ Heads q (q.type t).methods (done ++ ds) := by
  induction ds generalizing p done with
  | nil =>
    cases hok
    rw [List.append_nil]
    exact ⟨h, ⟨rfl, rfl, fun _ _ => rfl, ⟨_, rfl⟩, Nat.le_refl _, fun _ _ => rfl⟩, hdone⟩
  | cons d ds ih =>
    rw [declareMethods] at hok
    obtain ⟨x, hx, hok⟩ := bind_eq_ok.mp hok
    obtain ⟨hnew, hok⟩ := guard_ok hok
    obtain ⟨hid, hbody, hhead⟩ := buildMethod_ok hx
    have hpending : t ∈ p.declared ++ [t] := by simp
    have hlt := h.lt t hpending
    have h₁ : (p.withMethod t x).Drafted [t] := h.withMethod hid hbody (by simpa using hnew)
    have hmore := moreMethods_withMethod (p := p) hid hlt
    have hdone₁ : Heads (p.withMethod t x) ((p.withMethod t x).type t).methods (done ++ [d]) := by
      rw [type_withMethod_self hid hlt]
      refine List.rel_append (hdone.kept ?_) (.cons ?_ .nil)
      · intro m hm e he
        rw [hmore.method m (h.member t hpending m hm).1]
        exact he
      · rw [method_withMethod_self hid]
        exact ⟨hhead.name, hhead.static, hhead.native, hhead.params⟩
    obtain ⟨hq, hmore', haligned⟩ := ih h₁ hdone₁ hok
    rw [List.append_cons]
    exact ⟨hq, hmore.trans hmore', haligned⟩

/-- A type is made, its methods are declared, and then it joins the program. -/
theorem declareType_ok (hok : declareType file d p = .ok q) :
    d.name ≠ "" ∧ ∃ (kind : TypeKind) (p' : Program),
      kindOf? d.kind = some kind ∧
      declareMethods file ⟨p.types.length⟩ d.name d.methods (p.newType
        { name := d.name, kind := kind, pos := ⟨file, d.line⟩, abstract := d.abstract }).2 =
          .ok p' ∧
      p'.addType ⟨p.types.length⟩ = .ok q := by
  unfold declareType at hok
  obtain ⟨hname, hok⟩ := guard_ok hok
  refine ⟨by simpa using hname, ?_⟩
  cases hkind : kindOf? d.kind with
  | none =>
    rw [hkind] at hok
    cases hok
  | some kind =>
    rw [hkind] at hok
    obtain ⟨p', hmethods, hok⟩ := bind_eq_ok.mp hok
    refine ⟨kind, p', rfl, hmethods, ?_⟩
    split at hok
    · rename_i q' hadd
      cases hok
      exact hadd
    · cases hok

/-- The types differ at most in their supertypes and in belonging to a program. -/
def SameOutline (x y : DeclaredType) : Prop :=
  ∃ a s is, y = { x with attached := a, super := s, interfaces := is }

/-- The type is the one that is described, up to its supertypes. -/
structure Outlines (p : Program) (t : TypeRef) (d : TypeDecl) : Prop where
  named : d.name ≠ ""
  name : (p.type t).name = d.name
  kind : kindOf? d.kind = some (p.type t).kind
  abstract : (p.type t).abstract = d.abstract
  methods : Heads p (p.type t).methods d.methods

theorem Outlines.kept (h : Outlines p t d) (htype : SameOutline (p.type t) (q.type t))
    (hmethods : ∀ m ∈ (p.type t).methods, ∀ e, HeadOf (p.method m) e → HeadOf (q.method m) e) :
    Outlines q t d := by
  obtain ⟨a, s, is, ht⟩ := htype
  refine ⟨h.named, ?_, ?_, ?_, ?_⟩
  · rw [ht, h.name]
  · rw [ht, h.kind]
  · rw [ht, h.abstract]
  · rw [ht]
    exact h.methods.kept hmethods

/-- The program has the types that are described, in the same order and under their names. -/
structure Listed (p : Program) (ds : List TypeDecl) : Prop where
  byName : p.byName = p.declared.map fun t => ((p.type t).name, t)
  outlines : List.Forall₂ (Outlines p) p.declared ds

/-- The types of the first program look the same in the second. -/
structure KeepsOutlines (p q : Program) : Prop where
  type : ∀ t ∈ p.declared, SameOutline (p.type t) (q.type t)
  head : ∀ t ∈ p.declared, ∀ m ∈ (p.type t).methods, ∀ d,
    HeadOf (p.method m) d → HeadOf (q.method m) d

section

variable {p q : Program} {ds : List TypeDecl}

theorem KeepsOutlines.byName (h : KeepsOutlines p q) :
    (p.declared.map fun t => ((q.type t).name, t)) =
      p.declared.map fun t => ((p.type t).name, t) := by
  refine List.map_congr_left fun t ht => ?_
  obtain ⟨a, s, is, hsame⟩ := h.type t ht
  rw [hsame]

theorem KeepsOutlines.outlines (h : KeepsOutlines p q)
    (hds : List.Forall₂ (Outlines p) p.declared ds) :
    List.Forall₂ (Outlines q) p.declared ds := by
  have hkept : ∀ t ∈ p.declared, ∀ d, Outlines p t d → Outlines q t d :=
    fun t ht _ hd => hd.kept (h.type t ht) (h.head t ht)
  have hboth := (List.forall₂_and_left p.declared ds).mpr ⟨hkept, hds⟩
  exact hboth.imp fun _ d ht => ht.1 d ht.2

theorem Listed.kept (h : Listed p ds) (hpq : KeepsOutlines p q)
    (hdeclared : q.declared = p.declared) (hbyName : q.byName = p.byName) : Listed q ds := by
  refine ⟨?_, ?_⟩
  · rw [hdeclared, hpq.byName, hbyName, h.byName]
  · rw [hdeclared]
    exact hpq.outlines h.outlines

/-- One more type joins a program. -/
theorem Listed.snoc (h : Listed p ds) (hpq : KeepsOutlines p q)
    (hdeclared : q.declared = p.declared ++ [t])
    (hbyName : q.byName = p.byName ++ [((q.type t).name, t)]) (hnew : Outlines q t d) :
    Listed q (ds ++ [d]) := by
  refine ⟨?_, ?_⟩
  · rw [hdeclared, List.map_append, hpq.byName, hbyName, h.byName]
    rfl
  · rw [hdeclared]
    exact List.rel_append (hpq.outlines h.outlines) (.cons hnew .nil)

end

/-- No type has a superclass yet. -/
def Unlinked (p : Program) : Prop := ∀ t ∈ p.declared, (p.type t).super = none

theorem declareType_drafted {done : List TypeDecl} (h : p.Drafted []) (hdone : Listed p done)
    (hfree : Unlinked p) (hok : declareType file d p = .ok q) :
    q.Drafted [] ∧ Listed q (done ++ [d]) ∧ Unlinked q := by
  obtain ⟨hname, kind, p₂, hkind, hmethods, hadded⟩ := declareType_ok hok
  let t : TypeRef := ⟨p.types.length⟩
  let x : DeclaredType :=
    { name := d.name, kind := kind, pos := ⟨file, d.line⟩, abstract := d.abstract }
  have h₁ : (p.newType x).2.Drafted [t] := h.newType rfl rfl
  have hnone : Heads (p.newType x).2 ((p.newType x).2.type t).methods [] := by
    rw [type_newType_self]
    exact .nil
  obtain ⟨h₂, hmore, hheads⟩ := declareMethods_drafted h₁ hnone hmethods
  obtain ⟨hq, hdeclared, htypes, hmethod⟩ := h₂.addType hadded
  have hself : ∃ a ms, q.type t = { x with attached := a, methods := ms } := by
    obtain ⟨a, ha⟩ := htypes t
    obtain ⟨ms, hms⟩ := hmore.self
    exact ⟨a, ms, by rw [ha, hms, type_newType_self]⟩
  have hhead : ∀ m e, HeadOf (p₂.method m) e → HeadOf (q.method m) e := by
    intro m e he
    obtain ⟨i, hi⟩ := hmethod m
    rw [hi]
    exact ⟨he.name, he.static, he.native, he.params⟩
  -- the types in front are as they were
  have hold : ∀ u ∈ p.declared, ∃ a, q.type u = { p.type u with attached := a } := by
    intro u hu
    have hlt : u.index < p.types.length := h.lt u (List.mem_append_left _ hu)
    have hut : u ≠ t := fun heq => Nat.lt_irrefl _ (heq ▸ hlt)
    obtain ⟨a, ha⟩ := htypes u
    exact ⟨a, by rw [ha, hmore.other u hut, type_newType_of_lt hlt]⟩
  have hkept : KeepsOutlines p q := by
    refine ⟨?_, ?_⟩
    · intro u hu
      obtain ⟨a, ha⟩ := hold u hu
      exact ⟨a, _, _, ha⟩
    · intro u hu m hm e he
      apply hhead
      rw [hmore.method m (h.member u (List.mem_append_left _ hu) m hm).1]
      exact he
  have hall : q.declared = p.declared ++ [t] := by
    rw [hdeclared, hmore.declared]
    rfl
  refine ⟨hq, hdone.snoc (t := t) hkept hall ?_ ?_, ?_⟩
  · rw [(h₂.addType_same hadded).1.byName]
    obtain ⟨a, ha⟩ := htypes t
    rw [ha]
    exact congrArg (· ++ _) hmore.byName
  · obtain ⟨a, ms, hms⟩ := hself
    refine ⟨hname, by rw [hms], by rw [hms, hkind], by rw [hms], ?_⟩
    obtain ⟨b, hb⟩ := htypes t
    rw [hb]
    exact hheads.kept fun m _ e he => hhead m e he
  · intro u hu
    rw [hall, List.mem_append, List.mem_singleton] at hu
    rcases hu with hu | rfl
    · obtain ⟨a, ha⟩ := hold u hu
      rw [ha]
      exact hfree u hu
    · obtain ⟨a, ms, hms⟩ := hself
      rw [hms]

theorem declareTypes_drafted {ds done : List TypeDecl} (h : p.Drafted []) (hdone : Listed p done)
    (hfree : Unlinked p) (hok : declareTypes file ds p = .ok q) :
    q.Drafted [] ∧ Listed q (done ++ ds) ∧ Unlinked q := by
  induction ds generalizing p done with
  | nil =>
    cases hok
    rw [List.append_nil]
    exact ⟨h, hdone, hfree⟩
  | cons d ds ih =>
    obtain ⟨p₁, hd, hok⟩ := bind_eq_ok.mp hok
    obtain ⟨h₁, hdone₁, hfree₁⟩ := declareType_drafted h hdone hfree hd
    rw [List.append_cons]
    exact ih h₁ hdone₁ hfree₁ hok

theorem listed_empty : Listed {} [] := ⟨rfl, .nil⟩

theorem unlinked_empty : Unlinked {} := fun _ ht => by cases ht

/-! ## Section 7: The round of linking -/

/-- The change leaves name, place and methods of a type alone. -/
def KeepsMembers (f : DeclaredType → DeclaredType) : Prop :=
  ∀ x, (f x).name = x.name ∧ (f x).attached = x.attached ∧ (f x).methods = x.methods

theorem updateType_keeps {f : DeclaredType → DeclaredType} (hf : KeepsMembers f) (p : Program)
    (t u : TypeRef) :
    ((p.updateType t f).type u).name = (p.type u).name ∧
      ((p.updateType t f).type u).attached = (p.type u).attached ∧
      ((p.updateType t f).type u).methods = (p.type u).methods := by
  rcases type_updateType_cases (p := p) t u f with hsame | hnew
  · rw [hsame]
    exact ⟨rfl, rfl, rfl⟩
  · rw [hnew]
    exact hf _

theorem updateType_drafted (h : p.Drafted []) (t : TypeRef) {f : DeclaredType → DeclaredType}
    (hf : KeepsMembers f) : (p.updateType t f).Drafted [] := by
  have hname := fun u => (updateType_keeps hf p t u).1
  have hattached := fun u => (updateType_keeps hf p t u).2.1
  have hmethods := fun u => (updateType_keeps hf p t u).2.2
  exact { h with
    lt := by rw [length_types_updateType]; exact h.lt
    attached := by simp only [hattached]; exact h.attached
    unattached := by simp only [hattached]; exact h.unattached
    name_inj := by simp only [hname]; exact h.name_inj
    named := by simp only [hname]; exact h.named
    owner := by simp only [hmethods]; exact h.owner
    member := by simp only [hmethods]; exact h.member
    registered := by simp only [hmethods]; exact h.registered
    distinct := by simp only [hmethods]; exact h.distinct
    methods_nodup := by simp only [hmethods]; exact h.methods_nodup }

theorem linkType_eq (hok : linkType p t d = .ok q) :
    ∃ f, KeepsMembers f ∧ q = p.updateType t f := by
  unfold linkType at hok
  by_cases hinterface : (p.type t).isInterface = true
  · rw [if_pos hinterface] at hok
    obtain ⟨-, hok⟩ := guard_ok hok
    obtain ⟨supers, -, hok⟩ := bind_eq_ok.mp hok
    cases hok
    refine ⟨fun x => { x with interfaces := supers }, ?_, rfl⟩
    exact fun _ => ⟨rfl, rfl, rfl⟩
  · rw [if_neg hinterface] at hok
    obtain ⟨super, -, hok⟩ := bind_eq_ok.mp hok
    obtain ⟨interfaces, -, hok⟩ := bind_eq_ok.mp hok
    cases hok
    refine ⟨fun x => { x with super := super, interfaces := interfaces }, ?_, rfl⟩
    exact fun _ => ⟨rfl, rfl, rfl⟩

theorem linkTypes_drafted {ds : List (TypeRef × TypeDecl)} (h : p.Drafted [])
    (hok : linkTypes ds p = .ok q) :
    q.Drafted [] ∧ q.declaredMethods = p.declaredMethods ∧ q.methods = p.methods := by
  induction ds generalizing p with
  | nil =>
    cases hok
    exact ⟨h, rfl, rfl⟩
  | cons td ds ih =>
    obtain ⟨t, d⟩ := td
    obtain ⟨p₁, hd, hok⟩ := bind_eq_ok.mp hok
    obtain ⟨f, hf, rfl⟩ := linkType_eq hd
    obtain ⟨hq, hmethods, hsame⟩ := ih (updateType_drafted h t hf) hok
    refine ⟨hq, hmethods.trans ?_, hsame⟩
    exact List.flatMap_congr fun u _ => (updateType_keeps hf p t u).2.2

end DefaultLowering.Description
