import DefaultLowering.Proofs.Declaring
import Mathlib.Data.List.Nodup

/-!
# Registration over whole histories

A program is built by operations in any order: types and methods are made, filed and changed, before or
after they belong to the program, and some operations are refused.  Two things hand out numbers that
others keep: the arena, which gives every method of the program its id, and the table of static
implementations, which holds ids.

- `Operation`, `Program.after`: the operations, and the program after some of them;
- `Registered`: the invariant.  Methods get their ids on two ways, when they are added to a type of the
  program and when a type that has them is added to the program, and both lead to the same arena;
- `Registered.perform`: every operation keeps it, also one that is refused;
- `Persists`: what is numbered, recorded or frozen stays so;
- `Inadmissible`: the operations that are refused;
- `after_registered`: this holds after every sequence of operations, a refused operation changes
  nothing, and frozen parameters are never added to.
-/

namespace DefaultLowering

/-! ## Section 1: Operations -/

/-- A type before it has methods or belongs to the program. -/
def DeclaredType.IsNew (t : DeclaredType) : Prop := t.methods = [] ∧ t.attached = false

/-- A method before any type has it. -/
def Method.IsNew (m : Method) : Prop := m.enclosing = none ∧ m.id = none

/-- What can be done to a program while it is built. -/
inductive Operation where
  | newType (t : { t : DeclaredType // t.IsNew })
  | newMethod (m : { m : Method // m.IsNew })
  | addType (t : TypeRef)
  | addMethod (t : TypeRef) (m : MethodRef)
  | addParam (m : MethodRef) (param : Param)
  | freezeParams (m : MethodRef)
  | addOverride (m overridden : MethodRef)
  | recordStatic (m impl : MethodRef)
  | requestTwin (m : MethodRef)
  | setSupertypes (t : TypeRef) (super : Option TypeRef) (interfaces : List TypeRef)
  | renameType (t : TypeRef) (name : String)
  | setBody (m : MethodRef) (body : Option Program.Body)

namespace Operation

/-- The types that an operation is applied to. -/
def types : Operation → List TypeRef
  | addType t => [t]
  | addMethod t _ => [t]
  | setSupertypes t _ _ => [t]
  | renameType t _ => [t]
  | _ => []

/-- The methods that an operation is applied to. -/
def methods : Operation → List MethodRef
  | addMethod _ m => [m]
  | addParam m _ => [m]
  | freezeParams m => [m]
  | addOverride m overridden => [m, overridden]
  | recordStatic m impl => [m, impl]
  | requestTwin m => [m]
  | setBody m _ => [m]
  | _ => []

/-- What the operation is applied to exists. -/
def Denotes (op : Operation) (p : Program) : Prop :=
  (∀ t ∈ op.types, t.index < p.types.length) ∧ ∀ m ∈ op.methods, m.index < p.methods.length

instance (op : Operation) (p : Program) : Decidable (op.Denotes p) :=
  inferInstanceAs (Decidable ((∀ t ∈ op.types, t.index < p.types.length) ∧
    ∀ m ∈ op.methods, m.index < p.methods.length))

end Operation

/-- Why an operation was refused. -/
inductive Refusal where
  | type (e : AddTypeError)
  | fault (f : Fault)
  deriving DecidableEq

namespace Program

/-- What an operation leaves that gives a new program or an error. -/
def attempt {ε : Type} (p : Program) (refusal : ε → Refusal) :
    Except ε Program → Program × Option Refusal
  | .ok q => (q, none)
  | .error e => (p, some (refusal e))

/-- What the request for a twin leaves. -/
def answer (p : Program) : TwinRequest → Program × Option Refusal
  | .known _ => (p, none)
  | .made _ q _ => (q, none)
  | .failed f q _ => (q, some (.fault f))

/-- The program that an operation leaves, and why it was refused. -/
def perform (p : Program) : Operation → Program × Option Refusal
  | .newType t => ((p.newType t.1).2, none)
  | .newMethod m => ((p.newMethod m.1).2, none)
  | .addType t => p.attempt .type (p.addType t)
  | .addMethod t m => p.attempt .fault (p.addMethod t m)
  | .addParam m param => p.attempt .fault (p.addParam m param)
  | .freezeParams m => (p.freezeParams m, none)
  | .addOverride m overridden => (p.addOverride m overridden, none)
  | .recordStatic m impl => p.attempt .fault (p.recordStatic m impl)
  | .requestTwin m => p.answer (p.requestTwin m)
  | .setSupertypes t super interfaces =>
    (p.updateType t fun x => { x with super := super, interfaces := interfaces }, none)
  | .renameType t name => (p.updateType t fun x => { x with name := name }, none)
  | .setBody m body => (p.setBody m body, none)

/-- One operation.  It is left out if there is nothing to apply it to. -/
def step (p : Program) (op : Operation) : Program :=
  if op.Denotes p then (p.perform op).1 else p

/-- The program after some operations, which begin with an empty one. -/
def after (ops : List Operation) : Program := ops.foldl step {}

/-! ## Section 2: The invariant -/

/-- Types, methods, the arena and the table of static implementations agree on where methods are, while
    methods may still be without their ids. -/
structure Enrolled (p : Program) : Prop where
  once : p.declared.Nodup
  attached : ∀ t, (p.type t).attached = true ↔ t ∈ p.declared
  /-- A type has a method exactly if the method was added to it. -/
  member : ∀ t m, m ∈ (p.type t).methods ↔ (p.method m).enclosing = some t
  /-- The method in the place `i` of the arena has the id `i`, and one with this id stands there. -/
  place : ∀ i m, p.arena[i]? = some m ↔ (p.method m).id = some i
  /-- The table holds ids. -/
  statics : ∀ e ∈ p.statics, e.2 < p.arena.length

/-- The methods with an id are those that were added to a type of the program. -/
structure Registered (p : Program) : Prop extends Enrolled p where
  numbered : ∀ m, (p.method m).id.isSome = true ↔
    ∃ t, (p.type t).attached = true ∧ (p.method m).enclosing = some t

/-- Frozen parameters stay frozen, and there are no others. -/
def KeepsFrozen (p q : Program) : Prop :=
  ∀ m, (p.method m).frozen = true →
    (q.method m).frozen = true ∧ (q.method m).params = (p.method m).params

theorem KeepsFrozen.of_methods {p q : Program} (h : q.methods = p.methods) : p.KeepsFrozen q := by
  intro m hm
  rw [method, h]
  exact ⟨hm, rfl⟩

/-- Ids, recorded static implementations and frozen parameters stay as they are. -/
structure Persists (p q : Program) : Prop where
  arena : p.arena <+: q.arena
  statics : ∀ key id, p.statics.lookup key = some id → q.statics.lookup key = some id
  frozen : p.KeepsFrozen q

theorem Persists.refl (p : Program) : p.Persists p :=
  ⟨List.prefix_refl _, fun _ _ h => h, .of_methods rfl⟩

theorem Persists.trans {p q r : Program} (h : p.Persists q) (h' : q.Persists r) : p.Persists r := by
  refine ⟨h.arena.trans h'.arena, fun key id hk => h'.statics key id (h.statics key id hk), ?_⟩
  intro m hm
  obtain ⟨hfrozen, hparams⟩ := h.frozen m hm
  obtain ⟨hfrozen', hparams'⟩ := h'.frozen m hfrozen
  exact ⟨hfrozen', hparams'.trans hparams⟩

/-- The second program has the same methods in the same places. -/
structure SamePlaces (p q : Program) : Prop where
  declared : q.declared = p.declared
  arena : q.arena = p.arena
  type : ∀ t, (q.type t).methods = (p.type t).methods ∧ (q.type t).attached = (p.type t).attached
  method : ∀ m, (q.method m).enclosing = (p.method m).enclosing ∧ (q.method m).id = (p.method m).id

section

variable {p q : Program}

/-- A change that moves no method keeps the invariant. -/
theorem Registered.same (h : p.Registered) (hq : SamePlaces p q)
    (hstatics : ∀ e ∈ q.statics, e.2 < p.arena.length) : q.Registered where
  once := by rw [hq.declared]; exact h.once
  attached t := by rw [(hq.type t).2, hq.declared]; exact h.attached t
  member t m := by rw [(hq.type t).1, (hq.method m).1]; exact h.member t m
  place i m := by rw [hq.arena, (hq.method m).2]; exact h.place i m
  statics := by rw [hq.arena]; exact hstatics
  numbered m := by
    simp only [(hq.method m).1, (hq.method m).2, (hq.type _).2]
    exact h.numbered m

theorem SamePlaces.persists (hq : SamePlaces p q) (hstatics : q.statics = p.statics)
    (hfrozen : p.KeepsFrozen q) : p.Persists q :=
  ⟨by simp [hq.arena], by rw [hstatics]; exact fun _ _ h => h, hfrozen⟩

/-- What a change of a method does not touch. -/
theorem read_updateMethod {α : Type} (p : Program) (m k : MethodRef) {f : Method → Method}
    (g : Method → α) (hf : ∀ x, g (f x) = g x) :
    g ((p.updateMethod m f).method k) = g (p.method k) := by
  rcases method_updateMethod_cases (p := p) m k f with hsame | hnew
  · rw [hsame]
  · rw [hnew, hf]

theorem keepsFrozen_updateMethod {m : MethodRef} {f : Method → Method}
    (hf : ∀ x, x.frozen = true → (f x).frozen = true ∧ (f x).params = x.params) :
    p.KeepsFrozen (p.updateMethod m f) := by
  intro k hk
  rcases method_updateMethod_cases (p := p) m k f with hsame | hnew
  · rw [hsame]
    exact ⟨hk, rfl⟩
  · rw [hnew]
    exact hf _ hk

/-- What a change of a type does not touch. -/
theorem read_updateType {α : Type} (p : Program) (t u : TypeRef) {f : DeclaredType → DeclaredType}
    (g : DeclaredType → α) (hf : ∀ x, g (f x) = g x) :
    g ((p.updateType t f).type u) = g (p.type u) := by
  rcases type_updateType_cases (p := p) t u f with hsame | hnew
  · rw [hsame]
  · rw [hnew, hf]

/-- A change that keeps what a key is made of. -/
theorem key_updateMethod (p : Program) (m k : MethodRef) {f : Method → Method}
    (hf : ∀ x, (f x).enclosing = x.enclosing ∧ (f x).name = x.name ∧ (f x).params = x.params) :
    (p.updateMethod m f).key k = p.key k := by
  have henclosing := read_updateMethod p m k Method.enclosing fun x => (hf x).1
  have hname := read_updateMethod p m k Method.name fun x => (hf x).2.1
  have hparams := read_updateMethod p m k Method.params fun x => (hf x).2.2
  simp only [key, enclosingName, Method.signature, henclosing, hname, hparams, type_updateMethod]

theorem samePlaces_updateMethod (p : Program) (m : MethodRef) {f : Method → Method}
    (hf : ∀ x, (f x).enclosing = x.enclosing ∧ (f x).id = x.id) :
    SamePlaces p (p.updateMethod m f) :=
  ⟨rfl, rfl, fun _ => ⟨rfl, rfl⟩, fun k =>
    ⟨read_updateMethod p m k Method.enclosing fun x => (hf x).1,
      read_updateMethod p m k Method.id fun x => (hf x).2⟩⟩

theorem samePlaces_updateType (p : Program) (t : TypeRef) {f : DeclaredType → DeclaredType}
    (hf : ∀ x, (f x).methods = x.methods ∧ (f x).attached = x.attached) :
    SamePlaces p (p.updateType t f) :=
  ⟨rfl, rfl, fun u => ⟨read_updateType p t u DeclaredType.methods fun x => (hf x).1,
      read_updateType p t u DeclaredType.attached fun x => (hf x).2⟩, fun _ => ⟨rfl, rfl⟩⟩

/-- A new entry is found where nothing was, and all else stays. -/
theorem getD_concat_cases {α : Type} [Inhabited α] (xs : List α) (x : α) (i : Nat) :
    ((xs ++ [x])[i]?).getD default = (xs[i]?).getD default ∨
      (xs[i]?).getD default = default ∧ ((xs ++ [x])[i]?).getD default = x := by
  rcases Nat.lt_trichotomy i xs.length with hlt | rfl | hgt
  · exact .inl (by rw [List.getElem?_append_left hlt])
  · exact .inr (by simp)
  · have hle : (xs ++ [x]).length ≤ i := by
      rw [List.length_append]
      exact hgt
    exact .inl (by rw [List.getElem?_eq_none hle, List.getElem?_eq_none (Nat.le_of_lt hgt)])

/-- A new method is like one that is not there: no type has it. -/
theorem samePlaces_newMethod (p : Program) {x : Method} (hx : x.IsNew) :
    SamePlaces p (p.newMethod x).2 := by
  refine ⟨rfl, rfl, fun _ => ⟨rfl, rfl⟩, fun m => ?_⟩
  simp only [method, newMethod]
  rcases getD_concat_cases p.methods x m.index with hsame | ⟨hnone, hnew⟩
  · rw [hsame]
    exact ⟨rfl, rfl⟩
  · rw [hnone, hnew]
    exact hx

theorem keepsFrozen_newMethod (p : Program) (x : Method) : p.KeepsFrozen (p.newMethod x).2 := by
  intro m hm
  simp only [method, newMethod] at hm ⊢
  rcases getD_concat_cases p.methods x m.index with hsame | ⟨hnone, -⟩
  · rw [hsame]
    exact ⟨hm, rfl⟩
  · -- at the index of the new method there was none, and so no frozen one
    rw [hnone] at hm
    cases hm

theorem samePlaces_newType (p : Program) {x : DeclaredType} (hx : x.IsNew) :
    SamePlaces p (p.newType x).2 := by
  refine ⟨rfl, rfl, fun t => ?_, fun _ => ⟨rfl, rfl⟩⟩
  simp only [type, newType]
  rcases getD_concat_cases p.types x t.index with hsame | ⟨hnone, hnew⟩
  · rw [hsame]
    exact ⟨rfl, rfl⟩
  · rw [hnone, hnew]
    exact hx

end

/-! ## Section 3: Handing out ids -/

section register

variable {p : Program} {m : MethodRef}

theorem Enrolled.numbered_nil (h : p.Enrolled) : p.Numbered [] :=
  ⟨fun k i => (h.place i k).mpr, nofun⟩

theorem id_register (hm : m.index < p.methods.length) (k : MethodRef) :
    ((p.register m).method k).id =
      if k = m ∧ (p.method m).id = none then some p.arena.length else (p.method k).id := by
  unfold register
  cases hid : (p.method m).id with
  | some => simp
  | none =>
    by_cases hk : k = m
    · subst hk
      simp only [Option.isSome_none, Bool.false_eq_true, if_false, and_self, if_true]
      exact congrArg Method.id (method_updateMethod_self _ hm)
    · simp only [Option.isSome_none, Bool.false_eq_true, if_false, hk, false_and]
      exact congrArg Method.id (method_updateMethod_ne _ hk)

theorem isSome_id_register (hm : m.index < p.methods.length) (k : MethodRef) :
    ((p.register m).method k).id.isSome = true ↔ (p.method k).id.isSome = true ∨ k = m := by
  rw [id_register hm]
  by_cases hk : k = m
  · subst hk
    cases hid : (p.method k).id <;> simp
  · simp [hk]

theorem arena_register (p : Program) (m : MethodRef) : p.arena <+: (p.register m).arena := by
  unfold register
  split
  · exact List.prefix_refl _
  · exact List.prefix_append _ _

/-- The next place of the arena goes to the method that gets its number. -/
theorem Enrolled.register (h : p.Enrolled) (hm : m.index < p.methods.length) :
    (p.register m).Enrolled := by
  have hsame := (register_numbered h.numbered_nil hm).1
  refine ⟨by rw [hsame.declared]; exact h.once, fun t => ?_, fun t k => ?_, fun i k => ?_,
    fun e he => ?_⟩
  · rw [hsame.type_eq, hsame.declared]
    exact h.attached t
  · rw [hsame.type_eq, hsame.enclosing]
    exact h.member t k
  · rw [id_register hm]
    cases hid : (p.method m).id with
    | some =>
      -- a method that has its id keeps it
      have hself : p.register m = p := by simp [Program.register, hid]
      rw [hself, if_neg (by simp)]
      exact h.place i k
    | none =>
      have harena : (p.register m).arena = p.arena ++ [m] := by simp [Program.register, hid]
      rw [harena, List.getElem?_append]
      by_cases hk : k = m
      · -- the method had no place yet
        have hnone : ¬ p.arena[i]? = some k := by
          rw [h.place i k, hk, hid]
          simp
        subst hk
        grind
      · simp only [hk, false_and, if_false]
        rw [← h.place i k]
        grind
  · rw [hsame.statics] at he
    exact Nat.lt_of_lt_of_le (h.statics e he) (arena_register p m).length_le

/-- The second program is the first one after the methods of a list got their ids. -/
structure Numbers (p : Program) (ms : List MethodRef) (q : Program) : Prop where
  enrolled : q.Enrolled
  same : p.SameButIds q
  arena : p.arena <+: q.arena
  id : ∀ k, (q.method k).id.isSome = true ↔ (p.method k).id.isSome = true ∨ k ∈ ms

theorem Numbers.persists {ms : List MethodRef} {q : Program} (h : Numbers p ms q) :
    p.Persists q := by
  refine ⟨h.arena, by rw [h.same.statics]; exact fun _ _ h => h, fun m hm => ?_⟩
  obtain ⟨i, hi⟩ := h.same.method m
  rw [hi]
  exact ⟨hm, rfl⟩

theorem Enrolled.numbers {p : Program} (h : p.Enrolled) :
    ∀ {ms : List MethodRef}, (∀ m ∈ ms, m.index < p.methods.length) →
      Numbers p ms (ms.foldl Program.register p)
  | [], _ => ⟨h, ⟨rfl, rfl, rfl, rfl, rfl, fun _ => ⟨_, rfl⟩⟩, List.prefix_refl _, by simp⟩
  | m :: ms, hms => by
    rw [List.forall_mem_cons] at hms
    have hsame := (register_numbered h.numbered_nil hms.1).1
    have hrest := (h.register hms.1).numbers (by rw [hsame.length]; exact hms.2)
    rw [List.foldl_cons]
    exact {
      enrolled := hrest.enrolled
      same := hsame.trans hrest.same
      arena := (arena_register p m).trans hrest.arena
      id := fun k => by rw [hrest.id, isSome_id_register hms.1, List.mem_cons, or_assoc] }

end register

/-- The program in which a type has one more method, which has no id from it yet. -/
def file (p : Program) (t : TypeRef) (m : MethodRef) : Program :=
  (p.updateMethod m fun method => { method with enclosing := some t }).updateType t fun type =>
    { type with methods := type.methods ++ [m] }

section file

variable {p : Program} {t : TypeRef} {m : MethodRef}

theorem appendMethod_eq (p : Program) (t : TypeRef) (m : MethodRef) :
    p.appendMethod t m =
      if ((p.file t m).type t).attached then (p.file t m).register m else p.file t m := rfl

theorem attached_file (u : TypeRef) : ((p.file t m).type u).attached = (p.type u).attached :=
  read_updateType _ t u DeclaredType.attached fun _ => rfl

theorem id_file (k : MethodRef) : ((p.file t m).method k).id = (p.method k).id :=
  read_updateMethod p m k Method.id fun _ => rfl

theorem enclosing_file (hm : m.index < p.methods.length) (k : MethodRef) :
    ((p.file t m).method k).enclosing = if k = m then some t else (p.method k).enclosing := by
  show ((p.updateMethod m _).method k).enclosing = _
  by_cases hk : k = m
  · subst hk
    rw [method_updateMethod_self _ hm, if_pos rfl]
  · rw [method_updateMethod_ne _ hk, if_neg hk]

theorem mem_methods_file (ht : t.index < p.types.length) (u : TypeRef) (k : MethodRef) :
    k ∈ ((p.file t m).type u).methods ↔ k ∈ (p.type u).methods ∨ (u = t ∧ k = m) := by
  unfold file
  by_cases hu : u = t
  · rw [hu, type_updateType_self _ (by exact ht)]
    simp
  · rw [type_updateType_ne _ hu]
    simp [hu]

/-- Only a method without a type, or one of the type itself, is filed. -/
theorem Enrolled.file (h : p.Enrolled) (ht : t.index < p.types.length)
    (hm : m.index < p.methods.length)
    (hfree : ∀ u, (p.method m).enclosing = some u → u = t) : (p.file t m).Enrolled where
  once := h.once
  attached u := by
    rw [attached_file]
    exact h.attached u
  member u k := by
    rw [mem_methods_file ht, enclosing_file hm, h.member u k]
    by_cases hk : k = m
    · subst hk
      have := hfree u
      grind
    · simp [hk]
  place i k := by
    rw [id_file]
    exact h.place i k
  statics := h.statics

theorem persists_file (p : Program) (t : TypeRef) (m : MethodRef) : p.Persists (p.file t m) :=
  ⟨List.prefix_refl _, fun _ _ h => h, keepsFrozen_updateMethod fun _ h => ⟨h, rfl⟩⟩

theorem Registered.appendMethod (h : p.Registered) (ht : t.index < p.types.length)
    (hm : m.index < p.methods.length)
    (hfree : ∀ u, (p.method m).enclosing = some u → u = t) :
    (p.appendMethod t m).Registered ∧ p.Persists (p.appendMethod t m) := by
  have hfile : (p.file t m).Enrolled := h.toEnrolled.file ht hm hfree
  have hlt : m.index < (p.file t m).methods.length := by
    show m.index < (p.updateMethod m _).methods.length
    rwa [length_methods_updateMethod]
  rw [appendMethod_eq, attached_file]
  cases ha : (p.type t).attached with
  | true =>
    rw [if_pos rfl]
    have hn : Numbers (p.file t m) [m] ((p.file t m).register m) :=
      hfile.numbers fun k hk => List.mem_singleton.mp hk ▸ hlt
    refine ⟨⟨hn.enrolled, fun k => ?_⟩, (persists_file p t m).trans hn.persists⟩
    simp only [hn.id, List.mem_singleton, id_file, hn.same.type_eq, attached_file,
      hn.same.enclosing, enclosing_file hm, h.numbered k]
    by_cases hk : k = m
    · simp [hk, ha]
    · simp [hk]
  | false =>
    refine ⟨⟨hfile, fun k => ?_⟩, persists_file p t m⟩
    simp only [Bool.false_eq_true, if_false, id_file, attached_file, enclosing_file hm, h.numbered k]
    by_cases hk : k = m
    · -- the type is not in the program, and no other has the method
      subst hk
      constructor
      · rintro ⟨u, hu, henclosing⟩
        rw [hfree u henclosing, ha] at hu
        cases hu
      · rintro ⟨u, hu, henclosing⟩
        rw [if_pos rfl] at henclosing
        rw [← Option.some.inj henclosing, ha] at hu
        cases hu
    · simp [hk]

theorem Registered.addMethod (h : p.Registered) (ht : t.index < p.types.length)
    (hm : m.index < p.methods.length) {q : Program} (hq : p.addMethod t m = .ok q) :
    q.Registered ∧ p.Persists q := by
  have hfree : (∀ u, (p.method m).enclosing = some u → u = t) ∧ q = p.appendMethod t m := by
    unfold Program.addMethod at hq
    grind
  rw [hfree.2]
  exact h.appendMethod ht hm hfree.1

end file

/-- A type brings the methods that it has along. -/
theorem Registered.addType {p q : Program} {t : TypeRef} (h : p.Registered)
    (ht : t.index < p.types.length) (hq : p.addType t = .ok q) : q.Registered ∧ p.Persists q := by
  have hnew : t ∉ p.declared := by
    intro ht
    rw [← h.attached] at ht
    unfold Program.addType at hq
    grind
  obtain ⟨-, rfl⟩ := addType_eq hq
  have hattached : ∀ u, ((p.joined t).type u).attached = true ↔
      (p.type u).attached = true ∨ u = t := by
    intro u
    by_cases hu : u = t
    · rw [hu, type_joined_self ht]
      simp
    · rw [type_joined_ne hu]
      simp [hu]
  have hmethods : ∀ u, ((p.joined t).type u).methods = (p.type u).methods :=
    fun u => read_updateType p t u DeclaredType.methods fun _ => rfl
  have hjoined : (p.joined t).Enrolled := by
    refine ⟨?_, fun u => ?_, fun u k => ?_, h.place, h.statics⟩
    · show (p.declared ++ [t]).Nodup
      rw [← List.concat_eq_append]
      exact h.once.concat hnew
    · rw [hattached, h.attached u]
      simp [joined]
    · rw [hmethods]
      exact h.member u k
  -- the type joins first, and then its methods get their ids one by one
  have hn := hjoined.numbers fun k hk => lt_of_enclosing ((hjoined.member t k).mp hk)
  have hpersists : p.Persists (p.joined t) :=
    ⟨List.prefix_refl _, fun _ _ h => h, .of_methods rfl⟩
  refine ⟨⟨hn.enrolled, fun k => ?_⟩, hpersists.trans hn.persists⟩
  have hnumbered : ((p.joined t).method k).id.isSome = true ↔ _ := h.numbered k
  have henclosing : ((p.joined t).method k).enclosing = (p.method k).enclosing := rfl
  rw [hn.id, hn.same.enclosing, hnumbered, hjoined.member, henclosing]
  simp only [hn.same.type_eq, hattached]
  grind

/-! ## Section 4: Static implementations -/

theorem Registered.recordStatic {p q : Program} {m impl : MethodRef} (h : p.Registered)
    (hq : p.recordStatic m impl = .ok q) : q.Registered ∧ p.Persists q := by
  obtain rfl | ⟨i, hi, hnone, rfl⟩ := recordStatic_ok hq
  · exact ⟨h, .refl q⟩
  · have hlt : i < p.arena.length := (List.getElem?_eq_some_iff.mp hi).1
    refine ⟨h.same ⟨rfl, rfl, fun _ => ⟨rfl, rfl⟩, fun _ => ⟨rfl, rfl⟩⟩ ?_, List.prefix_refl _, ?_,
      .of_methods rfl⟩
    · intro e he
      rcases List.mem_append.mp he with he | he
      · exact h.statics e he
      · rw [List.mem_singleton.mp he]
        exact hlt
    · intro key id hid
      rw [List.lookup_append, hid]
      rfl

section twin

variable {p : Program} {m : MethodRef} {iface : TypeRef} {x : Method}

/-- Each way in which the request for a twin can end. -/
inductive TwinEnding (p : Program) (m : MethodRef) : TwinRequest → Prop
  | known {twin : MethodRef} (h : p.staticOf? m = some twin) : TwinEnding p m (.known twin)
  | refused {f : Fault} (hf : f ≠ .absentBodyNode) (hnone : p.staticOf? m = none)
      (hnot : p.isDefault m = false ∨ (p.method m).id = none) : TwinEnding p m (.failed f p none)
  | made {iface : TypeRef} {x : Method} {r : Relocation} (hnone : p.staticOf? m = none)
      (hid : (p.method m).id.isSome = true) (henclosing : (p.method m).enclosing = some iface)
      (hx : x.IsNew) (hdefault : p.isDefault m = true) :
      TwinEnding p m (.made (p.installTwin m iface x).1 (p.installTwin m iface x).2 r)
  | cut {x : Method} {body : Option Body} {r : Option Relocation} (hx : x.IsNew)
      (hid : (p.method m).id.isSome = true) (hdefault : p.isDefault m = true) :
      TwinEnding p m (.failed .absentBodyNode ((p.newMethod x).2.setBody m body) r)

theorem requestTwin_ending (p : Program) (m : MethodRef) : TwinEnding p m (p.requestTwin m) := by
  unfold requestTwin
  split
  · next twin hs => exact .known hs
  next hnone =>
  split
  · next hnot => exact .refused (by simp) hnone (.inl (by simpa using hnot))
  next hnot =>
  have hdefault : p.isDefault m = true := by simpa using hnot
  split
  · next hid => exact .refused (by simp) hnone (.inr (by simpa using hid))
  next hid =>
  have hsome : (p.method m).id.isSome = true := by
    simpa [Option.isSome_iff_ne_none] using hid
  split
  · next henclosing =>
    rw [enclosing_of_isDefault hdefault] at henclosing
    cases henclosing
  next iface henclosing =>
  unfold makeTwin
  dsimp only
  split
  · split
    · exact .made hnone hsome henclosing ⟨rfl, rfl⟩ hdefault
    · exact .cut ⟨rfl, rfl⟩ hsome hdefault
  · exact .made hnone hsome henclosing ⟨rfl, rfl⟩ hdefault
  · next hcode hnative =>
    -- the body of a default method is a block or a fragment
    obtain ⟨-, -, -, -, husable⟩ := isDefault_iff.mp hdefault
    rcases hbody : (p.method m).body with _ | ⟨pos, _ | block⟩ | ⟨pos, func, refs⟩
    · simp [usable, hbody] at husable
    · simp [usable, hbody, Body.isUsable] at husable
    · exact absurd hbody (hcode pos block)
    · exact absurd hbody (hnative pos func refs)

theorem Registered.newMethod (h : p.Registered) (hx : x.IsNew) :
    (p.newMethod x).2.Registered ∧ p.Persists (p.newMethod x).2 :=
  have hsame := samePlaces_newMethod p hx
  ⟨h.same hsame h.statics, hsame.persists rfl (keepsFrozen_newMethod p x)⟩

theorem Registered.withMethod (h : p.Registered) (ht : iface.index < p.types.length)
    (hx : x.IsNew) :
    (p.withMethod iface x).Registered ∧ p.Persists (p.withMethod iface x) := by
  have hnext : (p.newMethod x).2.method p.next = x := by simp [Program.newMethod, method, next]
  have happended := (h.newMethod hx).1.appendMethod (t := iface) (m := p.next) ht
    (by simp [Program.newMethod, next])
    (by rw [hnext, hx.1]; intro u hu; cases hu)
  exact ⟨happended.1, (h.newMethod hx).2.trans happended.2⟩

theorem key_withMethod (ht : iface.index < p.types.length) (hx : x.id = none)
    (hm : m.index < p.methods.length) : (p.withMethod iface x).key m = p.key m := by
  have hname : ∀ u, ((p.withMethod iface x).type u).name = (p.type u).name := by
    intro u
    by_cases hu : u = iface
    · rw [hu, type_withMethod_self hx ht]
    · rw [type_withMethod_ne hx hu]
  simp only [key, enclosingName, method_withMethod_ne hx (ne_next_of_lt hm), hname]

/-- The program with a new method that is the static implementation of another. -/
def withStatic (p : Program) (m : MethodRef) (iface : TypeRef) (x : Method) : Program :=
  { p.withMethod iface x with statics := p.statics ++ [(p.key m, p.arena.length)] }

/-- The new method can be recorded: it has an id, and there is no entry yet. -/
theorem Registered.recordStatic_withMethod (h : p.Registered) (hnone : p.staticOf? m = none)
    (hm : m.index < p.methods.length) (ha : (p.type iface).attached = true)
    (ht : iface.index < p.types.length) (hx : x.IsNew) :
    (p.withMethod iface x).recordStatic m p.next = .ok (p.withStatic m iface x) := by
  have hid : ((p.withMethod iface x).method p.next).id = some p.arena.length := by
    rw [method_withMethod_self hx.2, ha]
    rfl
  have harena : (p.withMethod iface x).arena[p.arena.length]? = some p.next := by
    rw [arena_withMethod hx.2 ha]
    simp
  unfold Program.recordStatic
  simp only [hid, harena, ne_eq, not_true_eq_false, if_false, key_withMethod ht hx.2 hm,
    statics_withMethod hx.2, lookup_statics_of_lt h.statics hnone]
  rfl

theorem Registered.staticOf_withStatic (h : p.Registered) (hnone : p.staticOf? m = none)
    (hm : m.index < p.methods.length) (ha : (p.type iface).attached = true)
    (ht : iface.index < p.types.length) (hx : x.IsNew) :
    (p.withStatic m iface x).staticOf? m = some p.next := by
  show ((p.statics ++ [(p.key m, p.arena.length)]).lookup ((p.withMethod iface x).key m)).bind
    (fun id => (p.withMethod iface x).arena[id]?) = some p.next
  rw [key_withMethod ht hx.2 hm, arena_withMethod hx.2 ha, List.lookup_append,
    lookup_statics_of_lt h.statics hnone]
  simp

/-- A new twin is registered like any method of its interface, and it is recorded. -/
theorem Registered.installTwin (h : p.Registered) (hnone : p.staticOf? m = none)
    (hid : (p.method m).id.isSome = true) (henclosing : (p.method m).enclosing = some iface)
    (hx : x.IsNew) :
    (p.installTwin m iface x).2.Registered ∧ p.Persists (p.installTwin m iface x).2 ∧
      (p.installTwin m iface x).2.staticOf? m = some (p.installTwin m iface x).1 := by
  have hm : m.index < p.methods.length := lt_of_enclosing henclosing
  -- a method with an id is one of the program, and so is its interface
  have ha : (p.type iface).attached = true := by
    obtain ⟨t, ha, ht⟩ := (h.numbered m).mp hid
    rw [henclosing] at ht
    exact Option.some.inj ht ▸ ha
  have ht : iface.index < p.types.length := by
    by_contra hle
    rw [type_of_le (Nat.le_of_not_lt hle)] at ha
    cases ha
  have hy : Method.IsNew { x with frozen := true } := hx
  have hwith := h.withMethod ht hy
  have hrecord := h.recordStatic_withMethod hnone hm ha ht hy
  have hrecorded := hwith.1.recordStatic hrecord
  have hstatic := h.staticOf_withStatic hnone hm ha ht hy
  -- what is left is the new body of the method
  generalize p.withStatic m iface { x with frozen := true } = r at hrecord hrecorded hstatic
  have hinstall : p.installTwin m iface x = (p.next, r.updateMethod m fun z =>
      { z with body := some (delegatingBody m (p.method m) iface p.next), native := false }) := by
    have hadded : (p.newMethod { x with frozen := true }).2.appendMethod iface p.next =
        p.withMethod iface { x with frozen := true } := rfl
    have hnext : (p.newMethod { x with frozen := true }).1 = p.next := rfl
    unfold Program.installTwin
    simp only [hnext, hadded, hrecord]
  rw [hinstall]
  generalize hf : (fun z : Method => { z with
    body := some (delegatingBody m (p.method m) iface p.next), native := false }) = f
  have hsame : SamePlaces r (r.updateMethod m f) :=
    samePlaces_updateMethod r m (by subst hf; exact fun _ => ⟨rfl, rfl⟩)
  have hkey : (r.updateMethod m f).key m = r.key m :=
    key_updateMethod r m m (by subst hf; exact fun _ => ⟨rfl, rfl, rfl⟩)
  refine ⟨hrecorded.1.same hsame hrecorded.1.statics,
    (hwith.2.trans hrecorded.2).trans (hsame.persists rfl (keepsFrozen_updateMethod ?_)), ?_⟩
  · subst hf
    exact fun _ h => ⟨h, rfl⟩
  show (r.statics.lookup ((r.updateMethod m f).key m)).bind (fun id => r.arena[id]?) = some p.next
  rw [hkey]
  exact hstatic

end twin

/-! ## Section 5: Whole histories -/

theorem registered_empty : Registered {} := by
  have htype : ∀ t, ({} : Program).type t = default := fun t => type_of_le (Nat.zero_le _)
  have hmethod : ∀ m, ({} : Program).method m = default := fun m => method_of_le (Nat.zero_le _)
  refine ⟨⟨List.nodup_nil, fun t => ?_, fun t m => ?_, fun i m => ?_, nofun⟩, fun m => ?_⟩
  · rw [htype]
    exact ⟨nofun, nofun⟩
  · rw [htype, hmethod]
    exact ⟨nofun, nofun⟩
  · rw [hmethod]
    exact ⟨nofun, nofun⟩
  · rw [hmethod]
    exact ⟨nofun, fun ⟨_, _, h⟩ => nomatch h⟩

section perform

variable {p : Program}

theorem Registered.attempt {ε : Type} {refusal : ε → Refusal} {r : Except ε Program}
    (h : p.Registered) (hr : ∀ q, r = .ok q → q.Registered ∧ p.Persists q) :
    (p.attempt refusal r).1.Registered ∧ p.Persists (p.attempt refusal r).1 := by
  cases r with
  | ok q => exact hr q rfl
  | error => exact ⟨h, .refl p⟩

theorem Registered.updateMethod (h : p.Registered) (m : MethodRef) {f : Method → Method}
    (hf : ∀ x, (f x).enclosing = x.enclosing ∧ (f x).id = x.id)
    (hfrozen : p.KeepsFrozen (p.updateMethod m f)) :
    (p.updateMethod m f).Registered ∧ p.Persists (p.updateMethod m f) :=
  have hsame := samePlaces_updateMethod p m hf
  ⟨h.same hsame h.statics, hsame.persists rfl hfrozen⟩

theorem Registered.updateType (h : p.Registered) (t : TypeRef) {f : DeclaredType → DeclaredType}
    (hf : ∀ x, (f x).methods = x.methods ∧ (f x).attached = x.attached) :
    (p.updateType t f).Registered ∧ p.Persists (p.updateType t f) :=
  have hsame := samePlaces_updateType p t hf
  ⟨h.same hsame h.statics, hsame.persists rfl (.of_methods rfl)⟩

theorem Registered.answer {m : MethodRef} {r : TwinRequest} (h : p.Registered)
    (hr : p.TwinEnding m r) : (p.answer r).1.Registered ∧ p.Persists (p.answer r).1 := by
  cases hr with
  | known => exact ⟨h, .refl p⟩
  | refused => exact ⟨h, .refl p⟩
  | made hnone hid henclosing hx =>
    obtain ⟨hregistered, hpersists, -⟩ := h.installTwin hnone hid henclosing hx
    exact ⟨hregistered, hpersists⟩
  | @cut x body r hx =>
    -- the unfinished twin belongs to no type
    obtain ⟨hnew, hkeeps⟩ := h.newMethod hx
    obtain ⟨hset, hkeeps'⟩ := hnew.updateMethod m (f := fun z => { z with body := body })
      (fun _ => ⟨rfl, rfl⟩) (keepsFrozen_updateMethod fun _ h => ⟨h, rfl⟩)
    exact ⟨hset, hkeeps.trans hkeeps'⟩

/-- Every operation keeps the invariant, and what is numbered, recorded or frozen. -/
theorem Registered.perform (h : p.Registered) {op : Operation} (hop : op.Denotes p) :
    (p.perform op).1.Registered ∧ p.Persists (p.perform op).1 := by
  obtain ⟨htypes, hmethods⟩ := hop
  cases op with
  | newType t =>
    have hsame := samePlaces_newType p t.2
    exact ⟨h.same hsame h.statics, hsame.persists rfl (.of_methods rfl)⟩
  | newMethod m => exact h.newMethod m.2
  | addType t =>
    have ht := htypes t List.mem_cons_self
    exact h.attempt fun q hq => h.addType ht hq
  | addMethod t m =>
    have ht := htypes t List.mem_cons_self
    have hm := hmethods m List.mem_cons_self
    exact h.attempt fun q hq => h.addMethod ht hm hq
  | addParam m =>
    refine h.attempt fun q hq => ?_
    unfold addParam at hq
    split at hq
    · cases hq
    · next hopen =>
      cases hq
      refine h.updateMethod m (fun _ => ⟨rfl, rfl⟩) fun k hk => ?_
      -- the parameters of the method itself are not frozen
      have hne : k ≠ m := fun heq => hopen (heq ▸ hk)
      rw [method_updateMethod_ne _ hne]
      exact ⟨hk, rfl⟩
  | freezeParams m =>
    exact h.updateMethod m (fun _ => ⟨rfl, rfl⟩) (keepsFrozen_updateMethod fun _ _ => ⟨rfl, rfl⟩)
  | addOverride m =>
    refine h.updateMethod m (fun x => ?_) (keepsFrozen_updateMethod fun x hx => ?_)
    · split <;> exact ⟨rfl, rfl⟩
    · split <;> exact ⟨hx, rfl⟩
  | recordStatic => exact h.attempt fun q hq => h.recordStatic hq
  | requestTwin m => exact h.answer (requestTwin_ending p m)
  | setSupertypes t => exact h.updateType t fun _ => ⟨rfl, rfl⟩
  | renameType t => exact h.updateType t fun _ => ⟨rfl, rfl⟩
  | setBody m =>
    exact h.updateMethod m (fun _ => ⟨rfl, rfl⟩) (keepsFrozen_updateMethod fun _ h => ⟨h, rfl⟩)

theorem Registered.step (h : p.Registered) (op : Operation) :
    (p.step op).Registered ∧ p.Persists (p.step op) := by
  unfold Program.step
  split
  · next hop => exact h.perform hop
  · exact ⟨h, .refl p⟩

theorem Registered.steps (ops : List Operation) (h : p.Registered) :
    (ops.foldl Program.step p).Registered ∧ p.Persists (ops.foldl Program.step p) := by
  induction ops generalizing p with
  | nil => exact ⟨h, .refl p⟩
  | cons op ops ih =>
    obtain ⟨hstep, hpersists⟩ := h.step op
    obtain ⟨hrest, hpersists'⟩ := ih hstep
    exact ⟨hrest, hpersists.trans hpersists'⟩

/-- Once they are frozen, the parameters of a method are so through all that comes. -/
theorem Registered.frozen_steps (h : p.Registered) {m : MethodRef} (hm : m.index < p.methods.length)
    (more : List Operation) :
    (((.freezeParams m :: more).foldl Program.step p).method m).frozen = true ∧
      (((.freezeParams m :: more).foldl Program.step p).method m).params = (p.method m).params := by
  have hstep : p.step (.freezeParams m) = p.freezeParams m := by
    refine if_pos ⟨nofun, fun k hk => ?_⟩
    rw [List.mem_singleton.mp hk]
    exact hm
  have hself : (p.freezeParams m).method m = { p.method m with frozen := true } :=
    method_updateMethod_self _ hm
  -- the operations that follow start from a program in which they are frozen
  have hkept := ((h.step (.freezeParams m)).1.steps more).2.frozen m
  rw [hstep, hself] at hkept
  rw [List.foldl_cons, hstep]
  exact hkept rfl

/-! ## Section 6: Refused operations -/

/-- What is wrong with an operation. -/
inductive Inadmissible (p : Program) : Operation → Prop
  | nameTaken {t : TypeRef} (h : (p.typeNamed (p.type t).name).isSome = true) :
      Inadmissible p (.addType t)
  | inProgram {t : TypeRef} (h : t ∈ p.declared) : Inadmissible p (.addType t)
  | owned {t u : TypeRef} {m : MethodRef} (h : m ∈ (p.type u).methods) (hne : u ≠ t) :
      Inadmissible p (.addMethod t m)
  | frozen {m : MethodRef} {param : Param} (h : (p.method m).frozen = true) :
      Inadmissible p (.addParam m param)
  | outside {m impl : MethodRef} (h : impl ∉ p.arena) : Inadmissible p (.recordStatic m impl)
  | otherRecorded {m impl twin : MethodRef} (h : p.staticOf? m = some twin) (hne : twin ≠ impl) :
      Inadmissible p (.recordStatic m impl)
  | noDefault {m : MethodRef} (hnone : p.staticOf? m = none) (h : p.isDefault m = false) :
      Inadmissible p (.requestTwin m)
  | unattached {m : MethodRef} (hnone : p.staticOf? m = none) (h : m ∉ p.arena) :
      Inadmissible p (.requestTwin m)

/-- The operation is refused, and not because of a hole in a body that it moves. -/
def Refuses (p : Program) (op : Operation) : Prop :=
  ∃ refusal, (p.perform op).2 = some refusal ∧ refusal ≠ .fault .absentBodyNode

section refusals

variable {ε : Type} {op : Operation} {f : ε → Refusal} {r : Except ε Program}
  (hop : p.perform op = p.attempt f r)

include hop

theorem refuses_of_error {e : ε} (hr : r = .error e) (he : f e ≠ .fault .absentBodyNode) :
    p.Refuses op := by
  refine ⟨f e, ?_, he⟩
  rw [hop, hr]
  rfl

theorem not_refuses_of_isOk (hr : r.isOk = true) : ¬p.Refuses op := by
  rintro ⟨refusal, hrefused, -⟩
  cases r with
  | ok => rw [hop] at hrefused; cases hrefused
  | error => cases hr

theorem attempt_refused (h : p.Refuses op) : (p.perform op).1 = p := by
  cases r with
  | ok => exact absurd h (not_refuses_of_isOk hop rfl)
  | error => rw [hop]; rfl

end refusals

theorem Enrolled.mem_arena (h : p.Enrolled) {m : MethodRef} :
    m ∈ p.arena ↔ (p.method m).id.isSome = true := by
  rw [List.mem_iff_getElem?, Option.isSome_iff_exists]
  exact exists_congr fun i => h.place i m

theorem Registered.refuses_addType (h : p.Registered) {t : TypeRef} :
    p.Refuses (.addType t) ↔ p.Inadmissible (.addType t) := by
  by_cases hname : (p.typeNamed (p.type t).name).isSome = true
  · have herror : p.addType t = .error (.duplicate (p.type t).name) := by
      simp [Program.addType, hname]
    exact iff_of_true (refuses_of_error rfl herror (by simp)) (.nameTaken hname)
  by_cases ha : (p.type t).attached = true
  · have herror : p.addType t = .error (.owned (p.type t).name) := by
      simp [Program.addType, hname, ha]
    exact iff_of_true (refuses_of_error rfl herror (by simp)) (.inProgram ((h.attached t).mp ha))
  · have hok : (p.addType t).isOk = true := by
      simp [Program.addType, hname, ha, Except.isOk, Except.toBool]
    refine iff_of_false (not_refuses_of_isOk rfl hok) fun hwrong => ?_
    cases hwrong with
    | nameTaken htaken => exact hname htaken
    | inProgram hin => exact ha ((h.attached t).mpr hin)

theorem Registered.refuses_addMethod (h : p.Registered) {t : TypeRef} {m : MethodRef} :
    p.Refuses (.addMethod t m) ↔ p.Inadmissible (.addMethod t m) := by
  by_cases hother : ∃ u, (p.method m).enclosing = some u ∧ u ≠ t
  · obtain ⟨u, hu, hne⟩ := hother
    have herror : p.addMethod t m =
        .error (.methodOwned (p.method m).signature (p.type u).name) := by
      simp [Program.addMethod, hu, hne]
    exact iff_of_true (refuses_of_error rfl herror (by simp)) (.owned ((h.member u m).mpr hu) hne)
  · have hok : (p.addMethod t m).isOk = true := by
      unfold Program.addMethod
      cases hu : (p.method m).enclosing with
      | none => rfl
      | some u =>
        have hself : u = t := by_contra fun hne => hother ⟨u, hu, hne⟩
        simp [hself, Except.isOk, Except.toBool]
    refine iff_of_false (not_refuses_of_isOk rfl hok) fun hwrong => ?_
    cases hwrong with
    | owned hm hne => exact hother ⟨_, (h.member _ m).mp hm, hne⟩

theorem refuses_addParam {m : MethodRef} {param : Param} :
    p.Refuses (.addParam m param) ↔ p.Inadmissible (.addParam m param) := by
  by_cases hfrozen : (p.method m).frozen = true
  · have herror : p.addParam m param = .error (.parametersFrozen param.name (p.keyText m)) := by
      simp [Program.addParam, hfrozen]
    exact iff_of_true (refuses_of_error rfl herror (by simp)) (.frozen hfrozen)
  · have hok : (p.addParam m param).isOk = true := by
      simp [Program.addParam, hfrozen, Except.isOk, Except.toBool]
    refine iff_of_false (not_refuses_of_isOk rfl hok) fun hwrong => ?_
    cases hwrong with
    | frozen h => exact hfrozen h

theorem Registered.refuses_recordStatic (h : p.Registered) {m impl : MethodRef} :
    p.Refuses (.recordStatic m impl) ↔ p.Inadmissible (.recordStatic m impl) := by
  cases hid : (p.method impl).id with
  | none =>
    have herror : p.recordStatic m impl =
        .error (.implUnattached (p.keyText impl) (p.keyText m)) := by
      simp [Program.recordStatic, hid]
    refine iff_of_true (refuses_of_error rfl herror (by simp)) (.outside ?_)
    rw [h.mem_arena, hid]
    exact Bool.false_ne_true
  | some i =>
    have harena : p.arena[i]? = some impl := (h.place i impl).mpr hid
    have hin : impl ∈ p.arena := List.mem_of_getElem? harena
    cases hlookup : p.statics.lookup (p.key m) with
    | none =>
      have hok : (p.recordStatic m impl).isOk = true := by
        simp [Program.recordStatic, hid, harena, hlookup, Except.isOk, Except.toBool]
      refine iff_of_false (not_refuses_of_isOk rfl hok) fun hwrong => ?_
      cases hwrong with
      | outside hout => exact hout hin
      | otherRecorded hstatic => simp [staticOf?, hlookup] at hstatic
    | some known =>
      have hstaticOf : p.staticOf? m = p.arena[known]? := by simp [staticOf?, hlookup]
      by_cases hsame : known = i
      · -- the same implementation may be recorded again
        have hok : (p.recordStatic m impl).isOk = true := by
          simp [Program.recordStatic, hid, harena, hlookup, hsame, Except.isOk, Except.toBool]
        refine iff_of_false (not_refuses_of_isOk rfl hok) fun hwrong => ?_
        cases hwrong with
        | outside hout => exact hout hin
        | otherRecorded hstatic hne =>
          rw [hstaticOf, hsame, harena] at hstatic
          exact hne (Option.some.inj hstatic).symm
      · have herror : p.recordStatic m impl = .error (.implConflict (p.keyText m)
            ((p.arena[known]?.map p.keyText).getD "")) := by
          simp [Program.recordStatic, hid, harena, hlookup, hsame]
        -- what is recorded has an id, and the two ids are different
        obtain ⟨before, behind, hentries, -⟩ := List.lookup_eq_some_iff.mp hlookup
        have hlt : known < p.arena.length := h.statics (p.key m, known) (by simp [hentries])
        have htwin : p.arena[known]? = some (p.arena.get ⟨known, hlt⟩) :=
          List.getElem?_eq_getElem hlt
        refine iff_of_true (refuses_of_error rfl herror (by simp))
          (.otherRecorded (hstaticOf.trans htwin) fun heq => ?_)
        rw [heq, h.place, hid] at htwin
        exact hsame (Option.some.inj htwin).symm

/-- An operation that is not refused. -/
theorem not_refuses_of_none {op : Operation} (h : (p.perform op).2 = none) : ¬p.Refuses op := by
  rintro ⟨refusal, hrefused, -⟩
  rw [h] at hrefused
  cases hrefused

theorem Registered.refuses_requestTwin (h : p.Registered) {m : MethodRef} :
    p.Refuses (.requestTwin m) ↔ p.Inadmissible (.requestTwin m) := by
  have hending := requestTwin_ending p m
  have hperform : p.perform (.requestTwin m) = p.answer (p.requestTwin m) := rfl
  generalize p.requestTwin m = r at hending hperform
  cases hending with
  | known hs =>
    refine iff_of_false (not_refuses_of_none (by rw [hperform]; rfl)) fun hwrong => ?_
    cases hwrong with
    | noDefault hnone => simp [hs] at hnone
    | unattached hnone => simp [hs] at hnone
  | @refused f hf hnone hnot =>
    refine iff_of_true ⟨.fault f, by rw [hperform]; rfl, fun heq => hf (Refusal.fault.inj heq)⟩ ?_
    rcases hnot with hnot | hid
    · exact .noDefault hnone hnot
    · exact .unattached hnone (by rw [h.mem_arena, hid]; exact Bool.false_ne_true)
  | made _ hid _ _ hdefault =>
    refine iff_of_false (not_refuses_of_none (by rw [hperform]; rfl)) fun hwrong => ?_
    cases hwrong with
    | noDefault _ hnot => simp [hdefault] at hnot
    | unattached _ hout => exact hout (h.mem_arena.mpr hid)
  | cut _ hid hdefault =>
    -- a hole in the body is not among the things that are wrong with a request
    refine iff_of_false ?_ fun hwrong => ?_
    · rintro ⟨refusal, hrefused, hhole⟩
      rw [hperform] at hrefused
      exact hhole (Option.some.inj hrefused).symm
    · cases hwrong with
      | noDefault _ hnot => simp [hdefault] at hnot
      | unattached _ hout => exact hout (h.mem_arena.mpr hid)

/-- An operation is refused exactly if something is wrong with it. -/
theorem Registered.refuses_iff (h : p.Registered) (op : Operation) :
    p.Refuses op ↔ p.Inadmissible op := by
  cases op with
  | addType => exact h.refuses_addType
  | addMethod => exact h.refuses_addMethod
  | addParam => exact refuses_addParam
  | recordStatic => exact h.refuses_recordStatic
  | requestTwin => exact h.refuses_requestTwin
  | newType | newMethod | freezeParams | addOverride | setSupertypes | renameType | setBody =>
    exact iff_of_false (not_refuses_of_none rfl) fun hwrong => by cases hwrong

theorem answer_refused {m : MethodRef} {r : TwinRequest} {refusal : Refusal}
    (hr : p.TwinEnding m r) (h : (p.answer r).2 = some refusal)
    (hhole : refusal ≠ .fault .absentBodyNode) : (p.answer r).1 = p := by
  cases hr with
  | known => rfl
  | refused => rfl
  | made => cases h
  | cut =>
    cases h
    exact absurd rfl hhole

/-- A refused operation changes nothing. -/
theorem perform_refused {op : Operation} (h : p.Refuses op) : (p.perform op).1 = p := by
  cases op with
  | addType => exact attempt_refused rfl h
  | addMethod => exact attempt_refused rfl h
  | addParam => exact attempt_refused rfl h
  | recordStatic => exact attempt_refused rfl h
  | requestTwin m =>
    obtain ⟨refusal, hrefused, hhole⟩ := h
    exact answer_refused (requestTwin_ending p m) hrefused hhole
  | newType | newMethod | freezeParams | addOverride | setSupertypes | renameType | setBody =>
    exact absurd h (not_refuses_of_none rfl)

/-- A request that is not refused leaves a recorded twin. -/
theorem Registered.staticOf_answer {m : MethodRef} {r : TwinRequest} (h : p.Registered)
    (hr : p.TwinEnding m r) (hok : (p.answer r).2 = none) :
    ((p.answer r).1.staticOf? m).isSome = true := by
  cases hr with
  | known hs => simp [Program.answer, hs]
  | refused => cases hok
  | made hnone hid henclosing hx =>
    obtain ⟨-, -, hstatic⟩ := h.installTwin hnone hid henclosing hx
    simp [Program.answer, hstatic]
  | cut => cases hok

end perform

/-- After every sequence of operations, arena, types and methods agree on the ids, and the table of
    static implementations holds ids.  Later operations keep the ids, the entries and frozen parameters.  An
    operation is refused exactly if something is wrong with it, and then it leaves everything as it was;
    only a request for a twin can also come upon a hole in the body to be moved.  Once the parameters of a
    method have been frozen, another one is always refused.  A request for a twin that is not refused ends
    with a recorded one. -/
theorem after_registered (ops : List Operation) :
    (after ops).Registered ∧
    (∀ more, (after ops).Persists (after (ops ++ more))) ∧
    (∀ op, ((after ops).Refuses op ↔ (after ops).Inadmissible op) ∧
      ((after ops).Refuses op → ((after ops).perform op).1 = after ops)) ∧
    (∀ m, m.index < (after ops).methods.length → ∀ more param,
      (after (ops ++ .freezeParams m :: more)).Refuses (.addParam m param) ∧
      ((after (ops ++ .freezeParams m :: more)).method m).params = ((after ops).method m).params) ∧
    ∀ m, ((after ops).perform (.requestTwin m)).2 = none →
      (((after ops).perform (.requestTwin m)).1.staticOf? m).isSome = true := by
  have hops := (registered_empty.steps ops).1
  refine ⟨hops, fun more => ?_, fun op => ⟨hops.refuses_iff op, perform_refused⟩,
    fun m hm more param => ?_, fun m => ?_⟩
  · unfold after
    rw [List.foldl_append]
    exact (hops.steps more).2
  · obtain ⟨hfrozen, hparams⟩ := hops.frozen_steps hm more
    rw [← List.foldl_append] at hfrozen hparams
    exact ⟨refuses_addParam.mpr (.frozen hfrozen), hparams⟩
  · exact hops.staticOf_answer (requestTwin_ending _ m)

/-- A type gets a default method after it joined the program, and the method a twin.  The type is then
    offered a second time, under another name. -/
def offeredTwice : List Operation :=
  [.newType ⟨{ name := "Greeter", kind := .interfaceType, pos := default }, rfl, rfl⟩,
    .newMethod ⟨{
      name := "hello", result := "void", pos := default,
      body := some (.code default (some ⟨default, [.ret default .absent]⟩)) }, rfl, rfl⟩,
    .addType ⟨0⟩, .addMethod ⟨0⟩ ⟨0⟩, .requestTwin ⟨0⟩, .renameType ⟨0⟩ "Host", .addType ⟨0⟩]

theorem after_registered_offeredTwice :
    (after offeredTwice).arena = [⟨0⟩, ⟨1⟩] ∧ (after offeredTwice).Registered ∧
      (after offeredTwice).Refuses (.addType ⟨0⟩) ∧
      ((after offeredTwice).perform (.addType ⟨0⟩)).1 = after offeredTwice ∧
      ∀ param, (after (offeredTwice ++ [.freezeParams ⟨0⟩, .requestTwin ⟨0⟩])).Refuses
        (.addParam ⟨0⟩ param) := by
  obtain ⟨hregistered, -, hrefuses, hfrozen, -⟩ := after_registered offeredTwice
  have hin : ⟨0⟩ ∈ (after offeredTwice).declared := by decide
  have hrefused := (hrefuses (.addType ⟨0⟩)).1.mpr (.inProgram hin)
  exact ⟨by decide, hregistered, hrefused, (hrefuses (.addType ⟨0⟩)).2 hrefused,
    fun param => (hfrozen ⟨0⟩ (by decide) _ param).1⟩

end Program

end DefaultLowering
