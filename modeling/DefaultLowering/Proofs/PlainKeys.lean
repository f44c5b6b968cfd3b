import DefaultLowering.Proofs.Spelling

/-!
# Keys that determine identifiers

Identifiers are remembered under keys, and keys are texts: the name of a type, and the name of a method
with its parameter types in brackets.  Where names have no opening bracket and types are neither empty
nor have commas, a key tells the name and each of the types, and so the identifier, whatever program
the method belongs to.

- `PlainKeys`: the restriction on names and types;
- `memberIdent_of_key`: methods of any two programs with the same key have the same identifier;
- `PlainKeys.requestTwin`, `PlainKeys.forwarded`: twins and forwarders keep to the restriction.
-/

namespace DefaultLowering

variable {x : Method} {m k : MethodRef} {s : Forwarding}

/-! ## Section 1: Texts of types and methods -/

/-- A text that can be told from its neighbours in a list of types. -/
def IsTypeText (type : TypeName) : Prop := type ≠ "" ∧ ',' ∉ type.toList

instance (type : TypeName) : Decidable (IsTypeText type) := inferInstanceAs (Decidable (_ ∧ _))

/-- The name and the parameter types of the method can be told from its signature. -/
def Method.IsPlainKey (x : Method) : Prop :=
  '(' ∉ x.name.toList ∧ ∀ y ∈ x.params, IsTypeText y.type

instance (x : Method) : Decidable x.IsPlainKey := inferInstanceAs (Decidable (_ ∧ _))

/-- The first text of a list goes up to the first comma. -/
theorem takeWhile_intercalate {x : String} (hx : ',' ∉ x.toList) (xs : List String) :
    (String.intercalate "," (x :: xs)).toList.takeWhile (· != ',') = x.toList := by
  have hall : ∀ c ∈ x.toList, (c != ',') = true := by
    intro c hc
    rw [bne_iff_ne]
    rintro rfl
    exact hx hc
  cases xs with
  | nil =>
    rw [String.intercalate_singleton, ← List.append_nil x.toList, List.takeWhile_append_of_pos hall]
    rfl
  | cons =>
    rw [String.intercalate_cons_cons, String.toList_append, String.toList_append, List.append_assoc,
      List.takeWhile_append_of_pos hall]
    simp

theorem intercalate_ne_empty {x : String} (hx : IsTypeText x) (xs : List String) :
    String.intercalate "," (x :: xs) ≠ "" := by
  intro hempty
  have hfirst := takeWhile_intercalate hx.2 xs
  rw [hempty] at hfirst
  exact hx.1 (String.toList_inj.mp hfirst.symm)

/-- A list of types is told from its text. -/
theorem intercalate_types_inj {xs ys : List String} (hx : ∀ x ∈ xs, IsTypeText x)
    (hy : ∀ y ∈ ys, IsTypeText y)
    (h : String.intercalate "," xs = String.intercalate "," ys) : xs = ys := by
  induction xs generalizing ys with
  | nil =>
    cases ys with
    | nil => rfl
    | cons y ys =>
      rw [String.intercalate_nil] at h
      exact absurd h.symm (intercalate_ne_empty (hy y List.mem_cons_self) ys)
  | cons x xs ih =>
    cases ys with
    | nil =>
      rw [String.intercalate_nil] at h
      exact absurd h (intercalate_ne_empty (hx x List.mem_cons_self) xs)
    | cons y ys =>
      rw [List.forall_mem_cons] at hx hy
      obtain rfl : x = y := by
        apply String.toList_inj.mp
        rw [← takeWhile_intercalate hx.1.2 xs, h, takeWhile_intercalate hy.1.2 ys]
      rw [ih hx.2 hy.2 (Program.intercalate_cons_inj h)]

/-- A signature tells the name and the types. -/
theorem Method.IsPlainKey.of_signature {y : Method} (hx : x.IsPlainKey) (hy : y.IsPlainKey)
    (h : x.signature = y.signature) :
    x.name = y.name ∧ x.params.map Param.type = y.params.map Param.type := by
  obtain ⟨hname, htypes⟩ := Program.signature_inj hx.1 hy.1 h
  refine ⟨hname, intercalate_types_inj ?_ ?_ htypes⟩
  · exact List.forall_mem_map.mpr hx.2
  · exact List.forall_mem_map.mpr hy.2

/-- With the same name and parameter types a method keeps a plain key. -/
theorem Method.IsPlainKey.congr {y : Method} (h : x.IsPlainKey) (hname : y.name = x.name)
    (hparams : y.params = x.params) : y.IsPlainKey := by
  unfold Method.IsPlainKey
  rw [hname, hparams]
  exact h

namespace Program

/-! ## Section 2: Programs with plain keys -/

/-- All methods and types there are have texts that can be told apart. -/
structure PlainKeys (p : Program) : Prop where
  methods : ∀ x ∈ p.methods, x.IsPlainKey
  types : ∀ t ∈ p.types, IsTypeText t.name

instance (p : Program) : Decidable p.PlainKeys :=
  decidable_of_iff ((∀ x ∈ p.methods, x.IsPlainKey) ∧ ∀ t ∈ p.types, IsTypeText t.name)
    ⟨fun h => ⟨h.1, h.2⟩, fun h => ⟨h.methods, h.types⟩⟩

variable {p q : Program}

theorem PlainKeys.method (h : p.PlainKeys) (m : MethodRef) : (p.method m).IsPlainKey := by
  unfold Program.method
  cases hm : p.methods[m.index]? with
  | none => exact ⟨List.not_mem_nil, nofun⟩
  | some x => exact h.methods x (List.mem_of_getElem? hm)

/-- An identifier is made of the name of the type, the name of the method and the parameter types. -/
theorem memberIdent_of_texts (htype : p.enclosingName m = q.enclosingName k)
    (hname : (p.method m).name = (q.method k).name)
    (htypes : (p.method m).params.map Param.type = (q.method k).params.map Param.type) :
    p.memberIdent m = q.memberIdent k := by
  have hdescriptors : (p.method m).params.map (fun x => x.type.descriptor) =
      (q.method k).params.map fun x => x.type.descriptor := by
    have hmapped := congrArg (List.map TypeName.descriptor) htypes
    rw [List.map_map, List.map_map] at hmapped
    exact hmapped
  simp only [memberIdent, memberText, htype, hname, hdescriptors]

/-- A key tells the identifier, whatever program it comes from. -/
theorem memberIdent_of_plainKey (hm : (p.method m).IsPlainKey) (hk : (q.method k).IsPlainKey)
    (h : p.key m = q.key k) : p.memberIdent m = q.memberIdent k := by
  obtain ⟨htype, hsignature⟩ := MethodKey.mk.inj h
  obtain ⟨hname, htypes⟩ := hm.of_signature hk hsignature
  exact memberIdent_of_texts htype hname htypes

theorem memberIdent_of_key (hp : p.PlainKeys) (hq : q.PlainKeys) (h : p.key m = q.key k) :
    p.memberIdent m = q.memberIdent k :=
  memberIdent_of_plainKey (hp.method m) (hq.method k) h

/-! ## Section 3: Changes that keep keys plain -/

/-- The program that comes with the answer to a request for a twin of a method of `old`. -/
def TwinRequest.program (old : Program) : TwinRequest → Program
  | .known _ => old
  | .made _ p _ => p
  | .failed _ p _ => p

theorem forall_mem_modify {α : Type} {P : α → Prop} {xs : List α} {f : α → α} (i : Nat)
    (h : ∀ x ∈ xs, P x) (hf : ∀ x, P x → P (f x)) : ∀ x ∈ xs.modify i f, P x := by
  intro y hy
  obtain ⟨j, hj⟩ := List.mem_iff_getElem?.mp hy
  rw [List.getElem?_modify] at hj
  obtain ⟨x, hx, rfl⟩ := Option.map_eq_some_iff.mp hj
  have hmem := h x (List.mem_of_getElem? hx)
  split
  · exact hf x hmem
  · exact hmem

namespace PlainKeys

/-- The rest of the program does not matter. -/
theorem congr (h : p.PlainKeys) (hmethods : q.methods = p.methods) (htypes : q.types = p.types) :
    q.PlainKeys := by
  refine ⟨?_, ?_⟩
  · rw [hmethods]
    exact h.methods
  · rw [htypes]
    exact h.types

theorem updateMethod (h : p.PlainKeys) (m : MethodRef) {f : Method → Method}
    (hf : ∀ x, (f x).name = x.name ∧ (f x).params = x.params) : (p.updateMethod m f).PlainKeys :=
  ⟨forall_mem_modify m.index h.methods fun x hx => hx.congr (hf x).1 (hf x).2, h.types⟩

theorem updateType (h : p.PlainKeys) (t : TypeRef) {f : DeclaredType → DeclaredType}
    (hf : ∀ x, (f x).name = x.name) : (p.updateType t f).PlainKeys := by
  refine ⟨h.methods, forall_mem_modify t.index h.types ?_⟩
  intro x hx
  rw [hf x]
  exact hx

theorem setBody (h : p.PlainKeys) (m : MethodRef) (b : Option Body) : (p.setBody m b).PlainKeys :=
  h.updateMethod m fun _ => ⟨rfl, rfl⟩

theorem newMethod (h : p.PlainKeys) (hx : x.IsPlainKey) :
    (p.newMethod x).2.PlainKeys := by
  refine ⟨?_, h.types⟩
  intro y hy
  rcases List.mem_append.mp hy with hy | hy
  · exact h.methods y hy
  · rw [List.mem_singleton.mp hy]
    exact hx

theorem register (h : p.PlainKeys) (m : MethodRef) : (p.register m).PlainKeys := by
  unfold Program.register
  split
  · exact h
  · have hupdated : (p.updateMethod m fun x => { x with id := some p.arena.length }).PlainKeys :=
      h.updateMethod m fun _ => ⟨rfl, rfl⟩
    exact hupdated.congr rfl rfl

theorem appendMethod (h : p.PlainKeys) (t : TypeRef) (m : MethodRef) :
    (p.appendMethod t m).PlainKeys := by
  have howned : (p.updateMethod m fun x => { x with enclosing := some t }).PlainKeys :=
    h.updateMethod m fun _ => ⟨rfl, rfl⟩
  have hlisted := howned.updateType t (f := fun x => { x with methods := x.methods ++ [m] })
    fun _ => rfl
  simp only [Program.appendMethod]
  split
  · exact hlisted.register m
  · exact hlisted

theorem recordStatic (h : p.PlainKeys) (hok : p.recordStatic m k = .ok q) :
    q.PlainKeys := by
  obtain rfl | ⟨i, -, -, rfl⟩ := recordStatic_ok hok
  · exact h
  · exact h.congr rfl rfl

/-! ## Section 4: Twins and forwarders -/

theorem installTwin (h : p.PlainKeys) (m : MethodRef) (t : TypeRef) (hx : x.IsPlainKey) :
    (p.installTwin m t x).2.PlainKeys := by
  have hnew := h.newMethod (x := { x with frozen := true }) hx
  have hlisted := hnew.appendMethod t ⟨p.methods.length⟩
  simp only [Program.installTwin]
  refine PlainKeys.updateMethod ?_ m fun _ => ⟨rfl, rfl⟩
  split
  · rename_i q hok
    exact hlisted.recordStatic hok
  · exact hlisted

/-- Default methods belong to interfaces, which have names. -/
theorem ofInterface (h : p.PlainKeys) {t : TypeRef} (ht : (p.type t).isInterface = true) :
    IsTypeText (p.type t).name := by
  unfold Program.type at ht ⊢
  cases hx : p.types[t.index]? with
  | none =>
    rw [hx] at ht
    cases ht
  | some x => exact h.types x (List.mem_of_getElem? hx)

/-- The receiver of a twin has the type of the interface. -/
theorem twinHead (hx : x.IsPlainKey) {iface : TypeName} (hiface : IsTypeText iface) :
    (twinHead x iface).IsPlainKey :=
  ⟨no_bracket_twin hx.1, List.forall_mem_cons.mpr ⟨hiface, hx.2⟩⟩

theorem makeTwin (h : p.PlainKeys) (m : MethodRef) {t : TypeRef}
    (ht : (p.type t).isInterface = true) : ((p.makeTwin m t).program p).PlainKeys := by
  have hhead := PlainKeys.twinHead (h.method m) (h.ofInterface ht)
  simp only [Program.makeTwin]
  split
  · split
    · exact h.installTwin m t hhead
    · exact (h.newMethod hhead).setBody m _
  · exact h.installTwin m t hhead
  · exact h

/-- Whatever comes of the request for a twin, keys stay plain. -/
theorem requestTwin (h : p.PlainKeys) (m : MethodRef) :
    ((p.requestTwin m).program p).PlainKeys := by
  unfold Program.requestTwin
  split
  · exact h
  split
  · exact h
  · rename_i hdefault
    split
    · exact h
    split
    · exact h
    · rename_i t ht
      apply h.makeTwin m
      -- a default method is one of an interface
      simp only [isDefault, ht, Bool.not_eq_true', Bool.not_eq_false, Bool.and_eq_true] at hdefault
      exact hdefault.1.1.1

theorem addForwarder (h : s.program.PlainKeys) (d twin : MethodRef) (t : TypeRef) :
    (s.addForwarder d twin t).program.PlainKeys := by
  simp only [Forwarding.addForwarder]
  split
  · exact h
  · have hd := h.method d
    have hforwarder : (Forwarding.forwarderFor s.program t d twin
        ⟨s.program.methods.length⟩).IsPlainKey := by
      refine ⟨hd.1, ?_⟩
      intro y hy
      obtain ⟨x, hx, rfl⟩ := List.mem_map.mp hy
      exact hd.2 x hx
    exact (h.newMethod hforwarder).appendMethod t _

theorem addForwarders (h : s.program.PlainKeys) (ts : List TypeRef) (d : MethodRef) :
    (s.addForwarders ts d).program.PlainKeys := by
  have htwin := h.requestTwin d
  have hfold : ∀ twin (s : Forwarding), s.program.PlainKeys →
      (ts.foldl (fun s t => s.addForwarder d twin t) s).program.PlainKeys := fun twin s hs =>
    List.foldlRecOn (motive := fun s : Forwarding => s.program.PlainKeys) ts _ hs fun _ hs t _ =>
      addForwarder hs d twin t
  unfold Forwarding.addForwarders
  split
  · exact h
  · split <;> rename_i heq <;> rw [heq] at htwin
    · exact hfold _ s h
    · exact hfold _ _ htwin
    · exact htwin

theorem addForType (h : s.program.PlainKeys) (t : TypeRef) :
    (s.addForType t).program.PlainKeys := by
  simp only [Forwarding.addForType]
  split
  · exact h
  split
  · exact h
  · exact List.foldlRecOn (motive := fun s : Forwarding => s.program.PlainKeys) _ _ h fun _ hs d _ =>
      addForwarders hs _ d

/-- Forwarders keep keys plain. -/
theorem forwarded (h : p.PlainKeys) (log : TwinLog) :
    (Forwarding.run p log).program.PlainKeys :=
  List.foldlRecOn (motive := fun s : Forwarding => s.program.PlainKeys) p.declared _ h fun _ hs t _ =>
    addForType hs t

end PlainKeys

end Program

end DefaultLowering
