import DefaultLowering.Proofs.Descriptors
import DefaultLowering.Proofs.Registration

/-!
# The index of a program

An identifier is a text made of three others.  Where names and types are made of plain characters, the
three can be read off it again, so that methods that have anything of them different have different
identifiers, and no method is lost when the methods of a program are listed by their identifiers.

A cache of identifiers may have served other programs before.  It remembers an identifier under the key
of the method it was made for, which may be a method of another program; a key of plain texts tells the
identifier as well.

- `HasPlainTexts`: what is asked of the texts of a method;
- `NameCache.Asked`: caches that were asked for methods with plain texts only;
- `Told`: programs whose types and methods have names and signatures of their own;
- `memberText_inj`, `index_eq`: what a member signature tells, and what is in the index;
- `memberText_tells`: both together.
-/

namespace DefaultLowering

variable {c : NameCache} {m : MethodRef} {t : TypeRef}

/-! ## Section 1: Plain texts -/

namespace TypeName

/-- Plain types are not empty, and have no commas. -/
theorem IsPlain.isTypeText {cs : List Char} (h : IsPlain cs) : cs ≠ [] ∧ ',' ∉ cs := by
  induction h with
  | name hne hcs =>
    refine ⟨hne, ?_⟩
    intro hmem
    have hchar := List.all_eq_true.mp hcs ',' hmem
    revert hchar
    decide
  | array _ ih =>
    refine ⟨List.append_ne_nil_of_right_ne_nil _ (List.cons_ne_nil _ _), ?_⟩
    rw [List.mem_append, not_or]
    exact ⟨ih.2, by decide⟩

end TypeName

namespace Program

/-- The name of the type, the name of the method and the parameter types are made of plain characters.
    A method without a type has an empty text in place of the type's name, which is as good. -/
structure HasPlainTexts (p : Program) (m : MethodRef) : Prop where
  enclosing : (p.enclosingName m).toList.all isTypeNameChar = true
  name : (p.method m).name.toList.all isNameChar = true
  params : ∀ x ∈ (p.method m).params, TypeName.IsPlain x.type.toList

variable {p q : Program} {m k : MethodRef}

theorem HasPlainTexts.isLegible (h : p.HasPlainTexts m) : p.IsLegible m := by
  refine ⟨?_, ?_, h.params⟩
  · intro hmem
    have hchar := List.all_eq_true.mp h.enclosing ':' hmem
    revert hchar
    decide
  · intro hmem
    have hchar := List.all_eq_true.mp h.name '(' hmem
    revert hchar
    decide

theorem HasPlainTexts.isPlainKey (h : p.HasPlainTexts m) : (p.method m).IsPlainKey := by
  refine ⟨h.isLegible.name, ?_⟩
  intro x hx
  obtain ⟨hne, hcomma⟩ := (h.params x hx).isTypeText
  refine ⟨?_, hcomma⟩
  intro hempty
  rw [hempty] at hne
  exact hne rfl

/-- A member signature tells the three texts it is made of. -/
theorem memberText_inj (hm : p.HasPlainTexts m) (hk : q.HasPlainTexts k)
    (h : p.memberText m = q.memberText k) :
    p.enclosingName m = q.enclosingName k ∧ (p.method m).name = (q.method k).name ∧
      (p.method m).params.map Param.type = (q.method k).params.map Param.type :=
  texts_of_memberIdent hm.isLegible hk.isLegible (congrArg ("@" ++ ·) h)

end Program

/-! ## Section 2: Caches -/

namespace NameCache

open Program

/-- Caches that were asked for the identifiers of methods with plain texts, of whatever programs, since
    they were empty. -/
inductive Asked : NameCache → Prop where
  | fresh : Asked {}
  | ask {c : NameCache} {p : Program} {m : MethodRef} (hc : Asked c) (hm : p.HasPlainTexts m) :
      Asked (c.identOf p m).2

/-- Whatever is remembered is the identifier of some method with plain texts, under its key. -/
theorem Asked.remembered (hc : c.Asked) {entry : MethodKey × String} (h : entry ∈ c.idents) :
    ∃ (p : Program) (m : MethodRef), p.HasPlainTexts m ∧ entry = (p.key m, p.memberIdent m) := by
  induction hc with
  | fresh => cases h
  | @ask c p m hc hm ih =>
    unfold identOf at h
    split at h
    · exact ih h
    · rcases List.mem_append.mp h with h | h
      · exact ih h
      · exact ⟨p, m, hm, List.mem_singleton.mp h⟩

/-- Methods that share a key share the identifier, so what is remembered is right for all of them. -/
theorem Asked.identOf (hc : c.Asked) {p : Program} (hm : p.HasPlainTexts m) :
    (c.identOf p m).1 = p.memberIdent m := by
  unfold NameCache.identOf
  cases hlookup : c.idents.lookup (p.key m) with
  | none => rfl
  | some ident =>
    obtain ⟨q, k, hk, hentry⟩ := hc.remembered (mem_of_lookup hlookup)
    obtain ⟨hkey, hident⟩ := Prod.mk.inj hentry
    change ident = p.memberIdent m
    rw [hident, memberIdent_of_plainKey hm.isPlainKey hk.isPlainKey hkey]

/-- As long as identifiers are new, every method is added under its own. -/
theorem indexMethods_eq {p : Program} {ms : List MethodRef} {index : MemberIndex}
    (hc : c.Asked) (hms : ∀ m ∈ ms, p.HasPlainTexts m)
    (hnodup : (index.map Prod.fst ++ ms.map p.memberIdent).Nodup) :
    (indexMethods p ms index c).1 = index ++ ms.map fun m => (p.memberIdent m, m) := by
  induction ms generalizing index c with
  | nil => simp [indexMethods]
  | cons m ms ih =>
    rw [List.forall_mem_cons] at hms
    have hnew : index.lookup (p.memberIdent m) = none := by
      rw [List.lookup_eq_none_iff]
      intro entry hentry
      rw [bne_iff_ne]
      exact fun hsame => List.disjoint_of_nodup_append hnodup (List.mem_map_of_mem hentry)
        (List.mem_cons.mpr (.inl hsame.symm))
    have hlater : ((index ++ [(p.memberIdent m, m)]).map Prod.fst ++
        ms.map p.memberIdent).Nodup := by
      rw [List.map_append, List.append_assoc]
      exact hnodup
    rw [indexMethods]
    simp only [hc.identOf hms.1, hnew, Option.isSome_none, Bool.false_eq_true, if_false]
    rw [ih (.ask hc hms.1) hms.2 hlater, List.append_assoc, List.map_cons, List.singleton_append]

end NameCache

/-! ## Section 3: Programs -/

namespace Program

/-- Types have names of their own and methods, within their type, signatures of their own; and all texts
    are plain.  A method is listed with the type that it says it belongs to, as it is in every program
    that was built by registering types and methods (`Enrolled.member`). -/
structure Told (p : Program) : Prop where
  types : (p.declared.map fun t => (p.type t).name).Nodup
  signatures : ∀ t ∈ p.declared, ((p.type t).methods.map fun m => (p.method m).signature).Nodup
  enclosing : ∀ t ∈ p.declared, ∀ m ∈ (p.type t).methods, (p.method m).enclosing = some t
  plain : ∀ m ∈ p.declaredMethods, p.HasPlainTexts m

namespace Told

variable {p : Program} (h : p.Told)

include h

theorem plain_of_mem (ht : t ∈ p.declared) (hm : m ∈ (p.type t).methods) : p.HasPlainTexts m :=
  h.plain m (List.mem_flatMap.mpr ⟨t, ht, hm⟩)

theorem enclosingName (ht : t ∈ p.declared) (hm : m ∈ (p.type t).methods) :
    p.enclosingName m = (p.type t).name := by
  simp only [Program.enclosingName, h.enclosing t ht m hm]

/-- No two methods of a type have one identifier, since no two have one signature. -/
theorem nodup_of_mem (ht : t ∈ p.declared) :
    ((p.type t).methods.map p.memberIdent).Nodup := by
  refine List.pairwise_map.mpr ?_
  refine (List.pairwise_map.mp (h.signatures t ht)).imp_of_mem ?_
  intro m k hm hk hsignatures hidents
  obtain ⟨-, hname, htypes⟩ := texts_of_memberIdent (h.plain_of_mem ht hm).isLegible
    (h.plain_of_mem ht hk).isLegible hidents
  exact hsignatures (by simp only [Method.signature, hname, htypes])

/-- No two methods have one identifier, since no two types have one name. -/
theorem nodup_memberIdent : (p.declaredMethods.map p.memberIdent).Nodup := by
  rw [declaredMethods, List.map_flatMap, List.nodup_flatMap]
  refine ⟨fun t ht => h.nodup_of_mem ht, ?_⟩
  refine (List.pairwise_map.mp h.types).imp_of_mem ?_
  intro t u ht hu hnames ident hident hident'
  obtain ⟨m, hm, rfl⟩ := List.mem_map.mp hident
  obtain ⟨k, hk, hsame⟩ := List.mem_map.mp hident'
  obtain ⟨htype, -⟩ := texts_of_memberIdent (h.plain_of_mem hu hk).isLegible
    (h.plain_of_mem ht hm).isLegible hsame
  rw [h.enclosingName hu hk, h.enclosingName ht hm] at htype
  exact hnames htype.symm

/-- The index lists every method under its identifier. -/
theorem index_eq (hc : c.Asked) :
    (c.index p).1 = p.declaredMethods.map fun m => (p.memberIdent m, m) := by
  have hnodup : (([] : MemberIndex).map Prod.fst ++
      p.declaredMethods.map p.memberIdent).Nodup := h.nodup_memberIdent
  rw [NameCache.index, NameCache.indexMethods_eq hc h.plain hnodup, List.nil_append]

end Told

/-- Identifiers that are all different are found where they stand. -/
theorem lookup_map_of_nodup {α : Type} {f : α → String} {xs : List α} (h : (xs.map f).Nodup)
    {x : α} (hx : x ∈ xs) : (xs.map fun x => (f x, x)).lookup (f x) = some x := by
  induction xs with
  | nil => cases hx
  | cons y ys ih =>
    rw [List.map_cons, List.nodup_cons] at h
    rw [List.map_cons, List.lookup_cons]
    rcases List.mem_cons.mp hx with rfl | hx
    · rw [beq_self_eq_true]
    · have hne : f x ≠ f y := by
        intro hsame
        exact h.1 (hsame ▸ List.mem_map_of_mem hx)
      rw [beq_eq_false_iff_ne.mpr hne]
      exact ih h.2 hx

/-- A member signature of plain texts tells the type, the name and the parameter types of its method,
    in whatever programs; and so the index of a program with plain texts, in which no two types share a
    name and no two methods of a type a signature, has every method under its identifier and nothing
    else. -/
theorem memberText_tells :
    (∀ (p q : Program) (m k : MethodRef), p.HasPlainTexts m → q.HasPlainTexts k →
      p.memberText m = q.memberText k →
        p.enclosingName m = q.enclosingName k ∧ (p.method m).name = (q.method k).name ∧
          (p.method m).params.map Param.type = (q.method k).params.map Param.type) ∧
    ∀ (p : Program) (c : NameCache), p.Told → c.Asked →
      (c.index p).1 = p.declaredMethods.map (fun m => (p.memberIdent m, m)) ∧
        ∀ m ∈ p.declaredMethods, (c.index p).1.lookup (p.memberIdent m) = some m := by
  refine ⟨fun p q m k hm hk htext => memberText_inj hm hk htext, ?_⟩
  intro p c hp hc
  refine ⟨hp.index_eq hc, ?_⟩
  intro m hm
  rw [hp.index_eq hc]
  exact lookup_map_of_nodup hp.nodup_memberIdent hm

/-- Two types whose names begin alike, with overloads whose types begin alike. -/
def overloads : Program :=
  after [
    .newType ⟨{ name := "a.B", kind := .interfaceType, pos := default }, rfl, rfl⟩,
    .newType ⟨{ name := "a.B$C", kind := .classType, pos := default }, rfl, rfl⟩,
    .newMethod ⟨{
      name := "m", result := "void", pos := default
      params := [⟨"x", "int", false, default⟩, ⟨"y", "a.B[][]", false, default⟩] }, rfl, rfl⟩,
    .newMethod ⟨{
      name := "m", result := "void", pos := default
      params := [⟨"x", "int[]", false, default⟩, ⟨"y", "a.B[]", false, default⟩] }, rfl, rfl⟩,
    .newMethod ⟨{
      name := "m", result := "void", pos := default
      params := [⟨"x", "Ia.B", false, default⟩] }, rfl, rfl⟩,
    .addMethod ⟨0⟩ ⟨0⟩, .addMethod ⟨0⟩ ⟨1⟩, .addMethod ⟨1⟩ ⟨2⟩, .addType ⟨0⟩, .addType ⟨1⟩]

theorem told_overloads : overloads.Told := by
  have hint : TypeName.IsPlain "int".toList := .name (by decide) (by decide)
  have htype : TypeName.IsPlain "a.B".toList := .name (by decide) (by decide)
  have hother : TypeName.IsPlain "Ia.B".toList := .name (by decide) (by decide)
  refine ⟨by decide +kernel, by decide +kernel, by decide +kernel, ?_⟩
  have hmethods : overloads.declaredMethods = [⟨0⟩, ⟨1⟩, ⟨2⟩] := by decide +kernel
  rw [hmethods, List.forall_mem_cons, List.forall_mem_cons, List.forall_mem_singleton]
  refine ⟨⟨by decide +kernel, by decide +kernel, ?_⟩, ⟨by decide +kernel, by decide +kernel, ?_⟩,
    ⟨by decide +kernel, by decide +kernel, ?_⟩⟩
  · change ∀ x ∈ [_, _], _
    rw [List.forall_mem_cons, List.forall_mem_singleton]
    exact ⟨hint, .array (.array htype)⟩
  · change ∀ x ∈ [_, _], _
    rw [List.forall_mem_cons, List.forall_mem_singleton]
    exact ⟨.array hint, .array htype⟩
  · change ∀ x ∈ [_], _
    rw [List.forall_mem_singleton]
    exact hother

/-- The three overloads are told apart, and a cache that was asked for one of them before makes an index
    of all. -/
theorem memberText_tells_overloads :
    overloads.Told ∧ overloads.memberText ⟨0⟩ ≠ overloads.memberText ⟨1⟩ ∧
    (({} : NameCache).identOf overloads ⟨1⟩).2.Asked ∧
    ((({} : NameCache).identOf overloads ⟨1⟩).2.index overloads).1 =
      [("@a.B::m(I[[La/B;)", ⟨0⟩), ("@a.B::m([I[La/B;)", ⟨1⟩), ("@a.B$C::m(LIa/B;)", ⟨2⟩)] := by
  have hplain : overloads.HasPlainTexts ⟨0⟩ ∧ overloads.HasPlainTexts ⟨1⟩ :=
    ⟨told_overloads.plain ⟨0⟩ (by decide +kernel), told_overloads.plain ⟨1⟩ (by decide +kernel)⟩
  have hasked : (({} : NameCache).identOf overloads ⟨1⟩).2.Asked :=
    .ask .fresh hplain.2
  refine ⟨told_overloads, ?_, hasked, ?_⟩
  · intro hsame
    obtain ⟨-, -, htypes⟩ := memberText_tells.1 overloads overloads ⟨0⟩ ⟨1⟩
      hplain.1 hplain.2 hsame
    revert htypes
    decide +kernel
  · rw [(memberText_tells.2 overloads _ told_overloads hasked).1]
    decide +kernel

end Program

end DefaultLowering
