import DefaultLowering.Program.Subtyping

/-!
# Looking up after a change

What `type` and `method` give after each of the changes that build a program, and what each change
leaves alone.  Everything later is said through these lookups; no other module opens the lists.

- `updateType` and `updateMethod` change the one entry they are given;
- `newMethod` and `appendMethod` together add a method to a type, in the last place of the list of
  methods, of the methods of its type and, if the type belongs to the program, of the arena.
-/

namespace DefaultLowering.Program

variable {m k : MethodRef} {t : TypeRef}

variable {p : Program}

/-! ## Section 1: References in range -/

theorem method_of_le (h : p.methods.length ≤ m.index) : p.method m = default := by
  unfold method
  rw [List.getElem?_eq_none h]
  rfl

theorem type_of_le (h : p.types.length ≤ t.index) : p.type t = default := by
  unfold type
  rw [List.getElem?_eq_none h]
  rfl

theorem lt_of_method_ne (h : p.method m ≠ default) : m.index < p.methods.length :=
  Nat.lt_of_not_le fun hle => h (method_of_le hle)

/-- A method that some type declares is there. -/
theorem lt_of_enclosing (h : (p.method m).enclosing = some t) :
    m.index < p.methods.length := by
  refine lt_of_method_ne fun hnone => ?_
  rw [hnone] at h
  cases h

/-- A method with a body is there. -/
theorem lt_of_body {b : Body} (h : (p.method m).body = some b) :
    m.index < p.methods.length := by
  refine lt_of_method_ne fun hnone => ?_
  rw [hnone] at h
  cases h

/-- What is an interface is a type of the program. -/
theorem lt_of_isInterface (h : (p.type t).isInterface = true) :
    t.index < p.types.length := by
  by_cases ht : t.index < p.types.length
  · exact ht
  · rw [type_of_le (Nat.le_of_not_lt ht)] at h
    cases h

/-! ## Section 2: Changing one declaration -/

@[simp] theorem type_updateMethod (m : MethodRef) (f : Method → Method) (t : TypeRef) :
    (p.updateMethod m f).type t = p.type t := rfl

@[simp] theorem method_updateType (t : TypeRef) (f : DeclaredType → DeclaredType) (m : MethodRef) :
    (p.updateType t f).method m = p.method m := rfl

@[simp] theorem length_methods_updateMethod (m : MethodRef) (f : Method → Method) :
    (p.updateMethod m f).methods.length = p.methods.length := by
  simp [updateMethod]

@[simp] theorem length_types_updateType (t : TypeRef) (f : DeclaredType → DeclaredType) :
    (p.updateType t f).types.length = p.types.length := by
  simp [updateType]

theorem method_updateMethod_self (f : Method → Method) (h : m.index < p.methods.length) :
    (p.updateMethod m f).method m = f (p.method m) := by
  simp [method, updateMethod, h]

theorem method_updateMethod_ne (f : Method → Method) (h : k ≠ m) :
    (p.updateMethod m f).method k = p.method k := by
  have hne : m.index ≠ k.index := by
    intro heq
    apply h
    cases k; cases m; simp_all
  simp [method, updateMethod, hne]

theorem type_updateType_self (f : DeclaredType → DeclaredType) (h : t.index < p.types.length) :
    (p.updateType t f).type t = f (p.type t) := by
  simp [type, updateType, h]

theorem type_updateType_ne {u : TypeRef} (f : DeclaredType → DeclaredType) (h : u ≠ t) :
    (p.updateType t f).type u = p.type u := by
  have hne : t.index ≠ u.index := by
    intro heq
    apply h
    cases u; cases t; simp_all
  simp [type, updateType, hne]

/-- After a change of one method, each is as it was or as the change makes it. -/
theorem method_updateMethod_cases (m k : MethodRef) (f : Method → Method) :
    (p.updateMethod m f).method k = p.method k ∨ (p.updateMethod m f).method k = f (p.method k) := by
  by_cases hk : k = m
  · subst hk
    by_cases hlt : k.index < p.methods.length
    · exact .inr (method_updateMethod_self f hlt)
    · have hle := Nat.le_of_not_lt hlt
      left
      rw [method_of_le hle, method_of_le (by simpa using hle)]
  · exact .inl (method_updateMethod_ne f hk)

theorem type_updateType_cases (t u : TypeRef) (f : DeclaredType → DeclaredType) :
    (p.updateType t f).type u = p.type u ∨ (p.updateType t f).type u = f (p.type u) := by
  by_cases hu : u = t
  · subst hu
    by_cases hlt : u.index < p.types.length
    · exact .inr (type_updateType_self f hlt)
    · have hle := Nat.le_of_not_lt hlt
      left
      rw [type_of_le hle, type_of_le (by simpa using hle)]
  · exact .inl (type_updateType_ne f hu)

/-- A change of a method that keeps it as it is changes nothing. -/
theorem updateMethod_eq_self {f : Method → Method} (h : f (p.method m) = p.method m) :
    p.updateMethod m f = p := by
  have hlist : p.methods.modify m.index f = p.methods := by
    apply List.ext_getElem?
    intro i
    rw [List.getElem?_modify]
    by_cases hi : m.index = i
    · subst hi
      simp only [method] at h
      cases hx : p.methods[m.index]? with
      | none => simp
      | some => rw [hx] at h; simpa using h
    · simp [hi]
  unfold updateMethod
  rw [hlist]

/-! ## Section 3: Bodies -/

theorem method_setBody_self (b : Option Body) (h : m.index < p.methods.length) :
    (p.setBody m b).method m = { p.method m with body := b } :=
  method_updateMethod_self _ h

theorem method_setBody_ne (b : Option Body) (h : k ≠ m) :
    (p.setBody m b).method k = p.method k :=
  method_updateMethod_ne _ h

@[simp] theorem type_setBody (m : MethodRef) (b : Option Body) (t : TypeRef) :
    (p.setBody m b).type t = p.type t := rfl

@[simp] theorem length_methods_setBody (m : MethodRef) (b : Option Body) :
    (p.setBody m b).methods.length = p.methods.length :=
  length_methods_updateMethod m _

theorem setBody_eq_self {b : Option Body} (h : (p.method m).body = b) :
    p.setBody m b = p := by
  apply updateMethod_eq_self
  rw [← h]

/-- A method after a body was set has the head it had. -/
theorem method_setBody (m k : MethodRef) (b : Option Body) :
    ∃ c, (p.setBody m b).method k = { p.method k with body := c } := by
  rcases method_updateMethod_cases m k (fun x => { x with body := b }) with hsame | hnew
  · exact ⟨(p.method k).body, hsame⟩
  · exact ⟨b, hnew⟩

/-! ## Section 4: A new method of a type -/

/-- The reference of the next new method. -/
def next (p : Program) : MethodRef := ⟨p.methods.length⟩

theorem ne_next_of_lt (h : m.index < p.methods.length) :
    m ≠ p.next := by
  rintro rfl
  exact Nat.lt_irrefl _ h

theorem lt_next_iff :
    m.index < p.methods.length + 1 ↔ m.index < p.methods.length ∨ m = p.next := by
  rw [Nat.lt_succ_iff_lt_or_eq]
  cases m
  simp [next]

/-- The program with the new method `x` in the last place of the type `t`. -/
def withMethod (p : Program) (t : TypeRef) (x : Method) : Program :=
  (p.newMethod x).2.appendMethod t p.next

/-- The same before the method has its place in the arena. -/
def insertMethod (p : Program) (t : TypeRef) (x : Method) : Program :=
  { p with
    types := p.types.modify t.index fun type =>
      { type with methods := type.methods ++ [⟨p.methods.length⟩] }
    methods := p.methods ++ [{ x with enclosing := some t }] }

theorem modify_length_append (xs : List Method) (x : Method) (f : Method → Method) :
    (xs ++ [x]).modify xs.length f = xs ++ [f x] := by
  rw [List.modify_eq_take_cons_drop (by simp)]
  simp

theorem attached_insertMethod (t u : TypeRef) (x : Method) :
    ((p.insertMethod t x).type u).attached = (p.type u).attached := by
  simp only [type, insertMethod, List.getElem?_modify]
  split <;> cases p.types[u.index]? <;> rfl

theorem method_insertMethod_self (t : TypeRef) (x : Method) :
    (p.insertMethod t x).method ⟨p.methods.length⟩ = { x with enclosing := some t } := by
  simp [method, insertMethod]

theorem withMethod_eq_insertMethod (t : TypeRef) (x : Method) :
    p.withMethod t x =
      if (p.type t).attached then (p.insertMethod t x).register ⟨p.methods.length⟩
      else p.insertMethod t x := by
  have hinsert : (((p.newMethod x).2.updateMethod ⟨p.methods.length⟩ fun m =>
      { m with enclosing := some t }).updateType t fun type =>
      { type with methods := type.methods ++ [⟨p.methods.length⟩] }) = p.insertMethod t x := by
    simp only [newMethod, updateMethod, updateType, insertMethod, modify_length_append]
  rw [← attached_insertMethod t t x, ← hinsert]
  rfl

/-- A method that no program has yet gets the next index of the arena if its type is attached. -/
theorem withMethod_eq (t : TypeRef) {x : Method} (hx : x.id = none) :
    p.withMethod t x =
      { p with
        types := p.types.modify t.index fun type =>
          { type with methods := type.methods ++ [⟨p.methods.length⟩] }
        methods := p.methods ++ [{ x with
          enclosing := some t
          id := if (p.type t).attached then some p.arena.length else none }]
        arena := if (p.type t).attached then p.arena ++ [⟨p.methods.length⟩] else p.arena } := by
  rw [withMethod_eq_insertMethod]
  cases ha : (p.type t).attached with
  | true =>
    have hid : ((p.insertMethod t x).method ⟨p.methods.length⟩).id = none := by
      rw [method_insertMethod_self]
      exact hx
    simp only [register, hid, Option.isSome_none, Bool.false_eq_true, if_false, if_true]
    simp [insertMethod, updateMethod, modify_length_append]
  | false => simp [insertMethod, hx]

section withMethod

variable {t : TypeRef} {x : Method} (hx : x.id = none)

include hx

theorem method_withMethod_self :
    (p.withMethod t x).method p.next = { x with
      enclosing := some t
      id := if (p.type t).attached then some p.arena.length else none } := by
  rw [withMethod_eq t hx]
  simp [method, next]

theorem method_withMethod_ne (h : k ≠ p.next) :
    (p.withMethod t x).method k = p.method k := by
  have hne : k.index ≠ p.methods.length := by
    intro heq
    apply h
    cases k; simp_all [next]
  rw [withMethod_eq t hx]
  by_cases hlt : k.index < p.methods.length
  · simp [method, List.getElem?_append, hlt]
  · have hle : p.methods.length + 1 ≤ k.index := by omega
    rw [method_of_le (p := p) (by omega), method_of_le (by simpa using hle)]

/-- Where a body comes from when a type has got a method. -/
theorem body_withMethod_cases {b : Body} (hk : ((p.withMethod t x).method k).body = some b) :
    (k = p.next ∧ x.body = some b) ∨ (p.method k).body = some b := by
  by_cases hkn : k = p.next
  · rw [hkn, method_withMethod_self hx] at hk
    exact .inl ⟨hkn, hk⟩
  · rw [method_withMethod_ne hx hkn] at hk
    exact .inr hk

theorem type_withMethod_self (ht : t.index < p.types.length) :
    (p.withMethod t x).type t =
      { p.type t with methods := (p.type t).methods ++ [p.next] } := by
  rw [withMethod_eq t hx]
  simp [type, ht, next]

theorem type_withMethod_ne {u : TypeRef} (h : u ≠ t) : (p.withMethod t x).type u = p.type u := by
  have hne : t.index ≠ u.index := by
    intro heq
    apply h
    cases u; cases t; simp_all
  rw [withMethod_eq t hx]
  simp [type, hne]

theorem length_methods_withMethod : (p.withMethod t x).methods.length = p.methods.length + 1 := by
  rw [withMethod_eq t hx]
  simp

theorem length_types_withMethod : (p.withMethod t x).types.length = p.types.length := by
  rw [withMethod_eq t hx]
  simp

theorem arena_withMethod (ha : (p.type t).attached = true) :
    (p.withMethod t x).arena = p.arena ++ [p.next] := by
  rw [withMethod_eq t hx]
  simp [ha, next]

theorem arena_withMethod_unattached (ha : (p.type t).attached = false) :
    (p.withMethod t x).arena = p.arena := by
  rw [withMethod_eq t hx]
  simp [ha]

theorem declared_withMethod : (p.withMethod t x).declared = p.declared := by
  rw [withMethod_eq t hx]

theorem statics_withMethod : (p.withMethod t x).statics = p.statics := by
  rw [withMethod_eq t hx]

theorem byName_withMethod : (p.withMethod t x).byName = p.byName := by
  rw [withMethod_eq t hx]

end withMethod

/-! ## Section 5: Recording a static implementation -/

/-- An entry is written only where there is none. -/
theorem recordStatic_ok {q : Program} {impl : MethodRef} (hq : p.recordStatic m impl = .ok q) :
    q = p ∨ ∃ i, p.arena[i]? = some impl ∧ p.statics.lookup (p.key m) = none ∧
      q = { p with statics := p.statics ++ [(p.key m, i)] } := by
  unfold recordStatic at hq
  grind

end DefaultLowering.Program
