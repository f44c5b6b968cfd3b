import DefaultLowering.Proofs.Traversal

/-!
# What member identifiers denote

Identifiers are remembered under the keys of methods.  As long as no two methods have the same key, the
identifier of a method is `@` and its member signature, whatever was asked for before.  Two methods may
still share an identifier, because a descriptor does not always tell types apart; then the identifier
denotes the one that is declared first.

- `NameCache.Faithful`: a cache that remembers nothing wrong;
- `lookup_index`: the index of a program finds what an identifier denotes.
-/

namespace DefaultLowering

variable {p : Program} {m : MethodRef} {c : NameCache}

namespace Program

/-- The identifier of a method. -/
def memberIdent (p : Program) (m : MethodRef) : String := "@" ++ p.memberText m

/-- The fragment of a body. -/
def Body.fragment? : Body → Option Fragment.Function
  | .native _ func _ => func
  | .code .. => none

/-- The first declared method that has the identifier. -/
def denoted (p : Program) (ident : String) : Option MethodRef :=
  p.declaredMethods.find? fun m => p.memberIdent m == ident

theorem memberIdent_of_denoted {ident : String} {k : MethodRef} (h : p.denoted ident = some k) :
    p.memberIdent k = ident := by
  have hfound := List.find?_some h
  exact beq_iff_eq.mp hfound

/-- The identifier of a declared method denotes a method, which may be another one. -/
theorem exists_denoted (hm : m ∈ p.declaredMethods) : ∃ k, p.denoted (p.memberIdent m) = some k :=
  Option.isSome_iff_exists.mp (List.find?_isSome.mpr ⟨m, hm, beq_self_eq_true _⟩)

/-- No two methods have the same key. -/
def KeysApart (p : Program) : Prop :=
  ∀ m k, m.index < p.methods.length → k.index < p.methods.length → p.key m = p.key k → m = k

theorem Wired.lt_of_mem_declaredMethods (hp : p.Wired) (h : m ∈ p.declaredMethods) :
    m.index < p.methods.length := by
  obtain ⟨t, ht, hm⟩ := List.mem_flatMap.mp h
  exact (hp.member t ht m hm).1

theorem Wired.mem_declaredMethods (hp : p.Wired) (h : m.index < p.methods.length) :
    m ∈ p.declaredMethods := by
  obtain ⟨t, ht, -, hm⟩ := hp.owner m h
  exact List.mem_flatMap.mpr ⟨t, ht, hm⟩

/-- No two methods of a type have the same signature. -/
def SignaturesApart (p : Program) : Prop := p.ApartIn p.declared

/-- Methods of one type are told apart by their signatures, types by their names. -/
theorem Wired.keysApart (hp : p.Wired) (hdistinct : p.SignaturesApart) :
    p.KeysApart := by
  intro m k hm hk hkey
  obtain ⟨t, ht, htm, hmem⟩ := hp.owner m hm
  obtain ⟨u, hu, huk, hmem'⟩ := hp.owner k hk
  obtain ⟨hname, hsignature⟩ := MethodKey.mk.inj hkey
  simp only [enclosingName, htm, huk] at hname
  have htu : t = u := hp.name_inj t ht u hu hname
  exact hdistinct t ht m hmem k (htu ▸ hmem') hsignature

end Program

namespace NameCache

open Program

theorem mem_of_lookup {key : MethodKey} {ident : String} (h : c.idents.lookup key = some ident) :
    (key, ident) ∈ c.idents := by
  obtain ⟨before, after, hidents, -⟩ := List.lookup_eq_some_iff.mp h
  rw [hidents]
  exact List.mem_append_right _ List.mem_cons_self

/-- What is remembered for the key of a method is the identifier of the method. -/
def Faithful (c : NameCache) (p : Program) : Prop :=
  ∀ m, m.index < p.methods.length → ∀ ident, c.idents.lookup (p.key m) = some ident →
    ident = p.memberIdent m

theorem faithful_empty (p : Program) : Faithful {} p := by
  intro m _ ident h
  cases h

variable {p : Program} (hkeys : p.KeysApart)

include hkeys

theorem Faithful.of_remembers (h : Remembers {} p c) : c.Faithful p := by
  intro m hm ident hlookup
  rcases h (p.key m) ident hlookup with hbase | ⟨k, hk, hkey, hident⟩
  · cases hbase
  · rw [hident, hkeys k m hk hm hkey]
    rfl

theorem identOf_faithful (hc : c.Faithful p) (hm : m.index < p.methods.length) :
    (c.identOf p m).1 = p.memberIdent m ∧ (c.identOf p m).2.Faithful p := by
  unfold identOf
  cases hlookup : c.idents.lookup (p.key m) with
  | some ident => exact ⟨hc m hm ident hlookup, hc⟩
  | none =>
    refine ⟨rfl, ?_⟩
    intro k hk ident hknown
    rw [List.lookup_append] at hknown
    rcases Option.or_eq_some_iff.mp hknown with hold | ⟨-, hnew⟩
    · exact hc k hk ident hold
    · -- the entry that was added is the one for `m`
      by_cases hkey : p.key k = p.key m
      · rw [hkeys k m hk hm hkey] at hnew ⊢
        simp only [List.lookup_cons, beq_self_eq_true, Option.some.injEq] at hnew
        exact hnew.symm
      · simp [List.lookup_cons, beq_eq_false_iff_ne.mpr hkey] at hnew

theorem lookup_indexMethods {ms : List MethodRef} (hms : ∀ m ∈ ms, m.index < p.methods.length)
    {index : MemberIndex} (hc : c.Faithful p) (ident : String) :
    (indexMethods p ms index c).1.lookup ident =
      (index.lookup ident).or (ms.find? fun m => p.memberIdent m == ident) := by
  induction ms generalizing index c with
  | nil => simp [indexMethods]
  | cons m ms ih =>
    rw [List.forall_mem_cons] at hms
    obtain ⟨hident, hc'⟩ := identOf_faithful hkeys hc hms.1
    rw [indexMethods]
    simp only [hident]
    rw [ih hms.2 hc', List.find?_cons]
    by_cases hm : p.memberIdent m = ident
    · -- the method is found unless another one was found before
      rw [hm, beq_self_eq_true]
      cases hknown : index.lookup ident with
      | some => simp [hknown]
      | none => simp [hknown, List.lookup_append]
    · rw [beq_eq_false_iff_ne.mpr hm]
      have hother : [(p.memberIdent m, m)].lookup ident = none := by
        simp [List.lookup_cons, beq_eq_false_iff_ne.mpr (Ne.symm hm)]
      split
      · rfl
      · rw [List.lookup_append, hother, Option.or_none]

/-- The index of a program finds what an identifier denotes. -/
theorem lookup_index (hp : p.Wired) (hc : c.Faithful p) (ident : String) :
    (c.index p).1.lookup ident = p.denoted ident := by
  unfold index
  rw [lookup_indexMethods hkeys (fun m hm => hp.lt_of_mem_declaredMethods hm) hc]
  simp [denoted]

end NameCache

end DefaultLowering
