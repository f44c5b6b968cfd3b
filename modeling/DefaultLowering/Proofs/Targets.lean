import DefaultLowering.Proofs.Indexing
import DefaultLowering.Proofs.Lexemes
import DefaultLowering.Proofs.References

/-!
# Keys as call targets

A call names its target by a text, which is taken apart at the last dot before the first bracket.  The
key of a method is such a text.  Types have dots in their names, and so may the types of parameters,
but not the names of methods; so the key is taken apart where it was put together, and since spaces do
not count, it may be written with spaces anywhere.

- `Spaced`: a text with spaces added to it;
- `splitTarget_signature`: a target is taken apart into the type and the signature;
- `resolveTarget_spaced`: what names a method is its key, however spaced.
-/

namespace DefaultLowering

namespace Description

/-! ## Section 1: Spaces -/

/-- The second text is the first with spaces added to it. -/
inductive Spaced : List Char → List Char → Prop
  | nil : Spaced [] []
  | space {cs ds : List Char} (h : Spaced cs ds) : Spaced cs (' ' :: ds)
  | char (c : Char) {cs ds : List Char} (h : Spaced cs ds) : Spaced (c :: cs) (c :: ds)

/-- Without its spaces, a text is what they were added to. -/
theorem spaced_iff {cs ds : List Char} (hcs : ' ' ∉ cs) :
    Spaced cs ds ↔ ds.filter (· != ' ') = cs := by
  constructor
  · intro h
    induction h with
    | nil => rfl
    | space _ ih => exact ih hcs
    | char c _ ih =>
      rw [List.mem_cons, not_or] at hcs
      rw [List.filter_cons, if_pos (bne_iff_ne.mpr (Ne.symm hcs.1)), ih hcs.2]
  · rintro rfl
    clear hcs
    induction ds with
    | nil => exact .nil
    | cons d ds ih =>
      by_cases hd : d = ' '
      · rw [hd]
        exact .space ih
      · rw [List.filter_cons, if_pos (bne_iff_ne.mpr hd)]
        exact .char d ih

/-! ## Section 2: Taking a target apart -/

/-- The last of the marked characters has no other behind it. -/
theorem lastIdx?_append {f : Char → Bool} {c : Char} (hc : f c = true) {ys : List Char}
    (hys : ∀ y ∈ ys, f y = false) (xs : List Char) :
    lastIdx? f (xs ++ c :: ys) = some xs.length := by
  have hnone : ys.reverse.findIdx? f = none := by
    rw [List.findIdx?_eq_none_iff]
    exact fun y hy => hys y (List.mem_reverse.mp hy)
  have hlast : (xs ++ c :: ys).reverse.findIdx? f = some ys.length := by
    rw [List.reverse_append, List.reverse_cons, List.append_assoc, List.findIdx?_append, hnone]
    simp [List.findIdx?_cons, hc]
  unfold lastIdx?
  rw [hlast, Option.map_some, List.length_append, List.length_cons]
  congr 1
  omega

theorem getElem?_of_lastIdx? {f : Char → Bool} {cs : List Char} {i : Nat}
    (h : lastIdx? f cs = some i) : ∃ c, cs[i]? = some c ∧ f c = true := by
  unfold lastIdx? at h
  obtain ⟨j, hj, rfl⟩ := Option.map_eq_some_iff.mp h
  obtain ⟨hlt, hmark, -⟩ := List.findIdx?_eq_some_iff_getElem.mp hj
  refine ⟨cs.reverse[j], ?_, hmark⟩
  rw [← List.getElem?_reverse (by simpa using hlt), List.getElem?_eq_getElem hlt]

/-- A type without brackets and a signature are found again, whatever dots and brackets there are in the
    parameters. -/
theorem splitTarget_signature {type name : List Char} (htype : type ≠ []) (hbracket : '(' ∉ type)
    (hname : '(' ∉ name) (hdot : '.' ∉ name) (params : List Char) :
    splitTarget (type ++ '.' :: (name ++ '(' :: (params ++ [')']))) =
      .ok (String.ofList type, String.ofList (name ++ '(' :: (params ++ [')']))) := by
  generalize hcs : type ++ '.' :: (name ++ '(' :: (params ++ [')'])) = cs
  -- the first bracket is the one behind the name
  have hfront : cs.takeWhile (· != '(') = type ++ '.' :: name := by
    rw [← hcs, ← List.cons_append, ← List.append_assoc]
    refine Fragment.takeWhile_append_rest (List.all_eq_true.mpr fun c hc => ?_) ?_
    · rw [bne_iff_ne]
      rintro rfl
      rcases List.mem_append.mp hc with hc | hc
      · exact hbracket hc
      · exact hname ((List.mem_cons.mp hc).resolve_left (by decide))
    · intro c hc
      cases hc
      rfl
  -- and the last dot before it the one behind the type
  have hlast : lastIdx? (· == '.') (type ++ '.' :: name) = some type.length := by
    refine lastIdx?_append rfl (fun c hc => ?_) type
    rw [beq_eq_false_iff_ne]
    rintro rfl
    exact hdot hc
  have hform : ((type ++ '.' :: name).length == cs.length || cs.getLast? != some ')') = false := by
    have hend : cs.getLast? = some ')' := by
      rw [← hcs]
      simp only [← List.cons_append, ← List.append_assoc]
      exact List.getLast?_concat
    rw [hend, bne_self_eq_false, Bool.or_false, beq_eq_false_iff_ne, ← hcs]
    simp only [List.length_append, List.length_cons, List.length_nil]
    omega
  obtain ⟨k, hk⟩ : ∃ k, type.length = k + 1 := Nat.exists_eq_succ_of_ne_zero (by simpa using htype)
  unfold splitTarget
  simp only [hfront, hlast, hform, hk, Bool.false_eq_true, if_false]
  rw [← hk, ← hcs, List.take_left, ← List.drop_drop, List.drop_left]
  rfl

/-- What a target is taken apart into are the texts before and behind a dot. -/
theorem eq_of_splitTarget {cs : List Char} {type signature : String}
    (h : splitTarget cs = .ok (type, signature)) :
    cs = type.toList ++ '.' :: signature.toList := by
  unfold splitTarget at h
  simp only at h
  split at h
  · cases h
  split at h
  · cases h
  · cases h
  next dot hdot hlast =>
  cases h
  obtain ⟨c, hc, hmark⟩ := getElem?_of_lastIdx? hlast
  -- the dot stands in the whole where it stands before the bracket
  have hwhole : cs[dot]? = some '.' := by
    obtain ⟨rest, hrest⟩ := List.takeWhile_prefix (p := (· != '(')) (l := cs)
    have hlt := (List.getElem?_eq_some_iff.mp hc).1
    rw [← hrest, List.getElem?_append_left hlt, hc, beq_iff_eq.mp hmark]
  obtain ⟨hlt, heq⟩ := List.getElem?_eq_some_iff.mp hwhole
  rw [String.toList_ofList, String.toList_ofList, ← heq, ← List.drop_eq_getElem_cons hlt,
    List.take_append_drop]

end Description

namespace Program

open Description

/-! ## Section 3: Programs whose methods are found by their keys -/

/-- Types are found under their names, which are all different, and the methods of a type have different
    signatures. -/
structure Addressed (p : Program) : Prop where
  listed : p.byName = p.declared.map fun t => ((p.type t).name, t)
  types : (p.declared.map fun t => (p.type t).name).Nodup
  signatures : p.SignaturesApart
  enclosing : ∀ t ∈ p.declared, ∀ m ∈ (p.type t).methods, (p.method m).enclosing = some t

/-- Loaded programs are of this sort. -/
theorem Loaded.addressed {p : Program} (h : p.Loaded) : p.Addressed := by
  have hfresh := h.fresh
  obtain ⟨file, x, hok⟩ := h
  obtain ⟨p₀, hlinked, -, -, hbodies, -⟩ := build_hasBody hok
  obtain ⟨-, hlisted, -⟩ := linked_describes hlinked
  refine ⟨?_, ?_, hfresh.distinct, fun t ht m hm => (hfresh.member t ht m hm).2⟩
  · simp only [hbodies.byName, hbodies.declared, hbodies.type]
    exact hlisted.byName
  · exact hfresh.types_nodup.map_on hfresh.name_inj

section

variable {p : Program} (h : p.Addressed)

include h

theorem Addressed.typeNamed {t : TypeRef} (ht : t ∈ p.declared) :
    p.typeNamed (p.type t).name = some t := by
  rw [Program.typeNamed, h.listed]
  exact lookup_map_of_nodup h.types ht

theorem Addressed.ownMethod {t : TypeRef} (ht : t ∈ p.declared) {m : MethodRef}
    (hm : m ∈ (p.type t).methods) : p.ownMethod? t (p.method m).signature = some m := by
  have hsome : (p.ownMethod? t (p.method m).signature).isSome = true :=
    List.find?_isSome.mpr ⟨m, hm, beq_self_eq_true _⟩
  obtain ⟨k, hk⟩ := Option.isSome_iff_exists.mp hsome
  have hsame := List.find?_some hk
  rw [hk, h.signatures t ht m hm k (List.mem_of_find?_eq_some hk) (beq_iff_eq.mp hsame).symm]

end

/-! ## Section 4: Keys of methods -/

/-- The texts of a method that leave its key in one piece. -/
structure HasTargetTexts (p : Program) (m : MethodRef) : Prop where
  type_ne : p.enclosingName m ≠ ""
  type : ' ' ∉ (p.enclosingName m).toList ∧ '(' ∉ (p.enclosingName m).toList
  name : ' ' ∉ (p.method m).name.toList ∧ '(' ∉ (p.method m).name.toList ∧
    '.' ∉ (p.method m).name.toList
  params : ∀ x ∈ (p.method m).params, ' ' ∉ x.type.toList

theorem toList_keyText (p : Program) (m : MethodRef) : (p.keyText m).toList =
    (p.enclosingName m).toList ++ '.' :: (p.method m).signature.toList := by
  simp [keyText, key, MethodKey.text, String.toList_append]

/-- There is nothing in a list but its parts and commas. -/
theorem not_mem_intercalate {c : Char} (hc : c ≠ ',') {xs : List String}
    (hxs : ∀ x ∈ xs, c ∉ x.toList) : c ∉ (String.intercalate "," xs).toList := by
  induction xs with
  | nil => simp
  | cons x xs ih =>
    rw [List.forall_mem_cons] at hxs
    cases xs with
    | nil =>
      rw [String.intercalate_singleton]
      exact hxs.1
    | cons =>
      rw [String.intercalate_cons_cons, String.toList_append, String.toList_append,
        List.mem_append, List.mem_append, not_or, not_or]
      exact ⟨⟨hxs.1, fun hcomma => hc (List.mem_singleton.mp hcomma)⟩, ih hxs.2⟩

namespace HasTargetTexts

variable {p : Program} {m : MethodRef} (h : p.HasTargetTexts m)

include h

theorem no_space : ' ' ∉ (p.keyText m).toList := by
  have hparams : ' ' ∉ (String.intercalate "," ((p.method m).params.map Param.type)).toList := by
    refine not_mem_intercalate (by decide) fun x hx => ?_
    obtain ⟨y, hy, rfl⟩ := List.mem_map.mp hx
    exact h.params y hy
  rw [toList_keyText, toList_signature]
  simp only [List.mem_append, List.mem_cons, List.not_mem_nil, h.type.1, h.name.1, hparams,
    or_false, false_or]
  decide

/-- The key is taken apart where it was put together. -/
theorem splitTarget_keyText : splitTarget (p.keyText m).toList =
    .ok (p.enclosingName m, (p.method m).signature) := by
  have hne : (p.enclosingName m).toList ≠ [] := fun hnil =>
    h.type_ne (String.toList_eq_nil_iff.mp hnil)
  have hsplit := splitTarget_signature hne h.type.2 h.name.2.1 h.name.2.2
    (String.intercalate "," ((p.method m).params.map Param.type)).toList
  rw [← toList_signature, String.ofList_toList, String.ofList_toList] at hsplit
  rw [toList_keyText, hsplit]

end HasTargetTexts

/-- A method is named by its key and by nothing else, but there may be spaces anywhere in the key.  This
    holds of every method in every program that can be loaded, or whose types and signatures are told
    apart otherwise, if there are no spaces in its texts, no brackets before its parameters, and no dots
    in its name. -/
theorem resolveTarget_spaced :
    (∀ p : Program, p.Loaded → p.Addressed) ∧
      ∀ p : Program, p.Addressed → ∀ m ∈ p.declaredMethods, p.HasTargetTexts m →
        ∀ target, resolveTarget p target = .ok m ↔
          Spaced (p.keyText m).toList target.toList := by
  refine ⟨fun p hp => hp.addressed, ?_⟩
  intro p hp m hm htexts target
  obtain ⟨t, ht, hm⟩ := List.mem_flatMap.mp hm
  have hname : ∀ u ∈ p.declared, ∀ k ∈ (p.type u).methods, p.enclosingName k = (p.type u).name := by
    intro u hu k hk
    simp only [enclosingName, hp.enclosing u hu k hk]
  rw [spaced_iff htexts.no_space, resolveTarget_eq_ok]
  constructor
  · rintro ⟨type, signature, u, hsplit, hu, hown⟩
    obtain ⟨hdeclared, rfl⟩ := typeNamed_of_byName hp.listed hu
    have hsignature := List.find?_some hown
    rw [eq_of_splitTarget hsplit, toList_keyText, beq_iff_eq.mp hsignature,
      hname u hdeclared m (List.mem_of_find?_eq_some hown)]
  · intro htarget
    refine ⟨_, _, t, htarget ▸ htexts.splitTarget_keyText, ?_, hp.ownMethod ht hm⟩
    rw [hname t ht m hm]
    exact hp.typeNamed ht

/-- One of three overloads, with dots in its type and its parameters, and brackets and spaces. -/
theorem resolveTarget_spaced_overloads :
    overloads.Addressed ∧ ⟨0⟩ ∈ overloads.declaredMethods ∧ overloads.HasTargetTexts ⟨0⟩ ∧
      overloads.keyText ⟨0⟩ = "a.B.m(int,a.B[][])" ∧
      resolveTarget overloads " a. B.m (int, a.B[ ][] ) " = .ok ⟨0⟩ := by
  have haddressed : overloads.Addressed := by
    refine ⟨by decide +kernel, by decide +kernel, ?_, by decide +kernel⟩
    unfold SignaturesApart ApartIn
    decide +kernel
  have htexts : overloads.HasTargetTexts ⟨0⟩ :=
    ⟨by decide +kernel, by decide +kernel, by decide +kernel, by decide +kernel⟩
  have hmem : ⟨0⟩ ∈ overloads.declaredMethods := by decide +kernel
  refine ⟨haddressed, hmem, htexts, by decide +kernel, ?_⟩
  refine (resolveTarget_spaced.2 overloads haddressed ⟨0⟩ hmem htexts _).mpr ?_
  exact (spaced_iff htexts.no_space).mpr (by decide +kernel)

end Program

end DefaultLowering
