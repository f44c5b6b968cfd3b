import DefaultLowering.Proofs.PlainKeys
import Mathlib.Data.List.Nodup

/-!
# What descriptors tell

The descriptors of parameter types stand in an identifier without anything between them.  Still the
types can be told from them, as long as they are plain: a letter ends the descriptor of a primitive type,
a semicolon that of another one, and a bracket in front is none of the two.

- `IsPlain`: the texts of types that are told from their descriptors;
- `descriptorChars_append_inj`: a descriptor followed by anything tells the type;
- `texts_of_memberIdent`: an identifier tells the texts that it is made of;
- `eq_of_memberIdent`: where names are plain, no two methods have the same identifier.
-/

namespace DefaultLowering

variable {cs ds ys xs : List Char} {p : Program} {m k : MethodRef}

namespace TypeName

open Program (isTypeNameChar)

/-! ## Section 1: Plain types -/

/-- The text of a plain type: a name of plain characters, or a plain type with `[]` behind it. -/
inductive IsPlain : List Char → Prop where
  | name {cs : List Char} (hne : cs ≠ []) (hcs : cs.all isTypeNameChar = true) : IsPlain cs
  | array {cs : List Char} (hcs : IsPlain cs) : IsPlain (cs ++ ['[', ']'])

theorem elemChars?_array (cs : List Char) : elemChars? (cs ++ ['[', ']']) = some cs := by
  simp [elemChars?]

/-- A plain name does not end with a bracket. -/
theorem elemChars?_name (hcs : cs.all isTypeNameChar = true) :
    elemChars? cs = none := by
  unfold elemChars?
  split
  · next rest hrest =>
    have hmem : ']' ∈ cs := by
      rw [← List.mem_reverse, hrest]
      exact List.mem_cons_self
    exact absurd (List.all_eq_true.mp hcs ']' hmem) (by decide)
  · rfl

theorem descriptorChars_array (cs : List Char) :
    descriptorChars (cs ++ ['[', ']']) = '[' :: descriptorChars cs := by
  rw [descriptorChars]
  split
  · next es hes =>
    rw [elemChars?_array, Option.some.injEq] at hes
    rw [hes]
  · next hnone =>
    rw [elemChars?_array] at hnone
    cases hnone

theorem descriptorChars_name (hcs : cs.all isTypeNameChar = true) :
    descriptorChars cs = plainDescriptor cs := by
  rw [descriptorChars]
  split
  · next es hes =>
    rw [elemChars?_name hcs] at hes
    cases hes
  · rfl

/-! ## Section 2: Reading descriptors -/

/-- Slashes for dots. -/
def slashed (c : Char) : Char := if c = '.' then '/' else c

/-- A primitive type has a letter of its own, and another type stands between `L` and a semicolon. -/
theorem plainDescriptor_cases (hne : cs ≠ []) :
    (∃ letter, (String.ofList cs, letter) ∈ primitives ∧ plainDescriptor cs = [letter]) ∨
      plainDescriptor cs = 'L' :: (cs.map slashed ++ [';']) := by
  unfold plainDescriptor
  cases hlookup : primitives.lookup (String.ofList cs) with
  | some letter =>
    obtain ⟨xs, ys, hsplit, -⟩ := List.lookup_eq_some_iff.mp hlookup
    refine .inl ⟨letter, ?_, rfl⟩
    rw [hsplit]
    exact List.mem_append_right _ List.mem_cons_self
  | none =>
    refine .inr ?_
    rw [if_neg (mt List.isEmpty_iff.mp hne)]
    rfl

theorem primitives_letter_inj {x y : String × Char} (hx : x ∈ primitives) (hy : y ∈ primitives)
    (h : x.2 = y.2) : x = y :=
  List.inj_on_of_nodup_map (f := Prod.snd) (by decide) hx hy h

/-- No letter begins the descriptor of an array or of a type that is not primitive. -/
theorem primitives_letter {x : String × Char} (hx : x ∈ primitives) : x.2 ≠ '[' ∧ x.2 ≠ 'L' := by
  have hall : primitives.all (fun x => x.2 != '[' && x.2 != 'L') = true := by decide
  have hchar := List.all_eq_true.mp hall x hx
  rw [Bool.and_eq_true, bne_iff_ne, bne_iff_ne] at hchar
  exact hchar

/-- Plain names have neither slashes nor semicolons, so that slashes can be told from what was there
    before. -/
theorem map_slashed_inj (hcs : cs.all isTypeNameChar = true) (hds : ds.all isTypeNameChar = true)
    (h : cs.map slashed = ds.map slashed) : cs = ds := by
  have hslash : ∀ c, isTypeNameChar c = true → c ≠ '/' := by
    rintro c hc rfl
    revert hc
    decide
  induction cs generalizing ds with
  | nil => exact (List.map_eq_nil_iff.mp h.symm).symm
  | cons c cs ih =>
    cases ds with
    | nil => cases h
    | cons d =>
      rw [List.all_cons, Bool.and_eq_true] at hcs hds
      rw [List.map_cons, List.map_cons, List.cons.injEq] at h
      obtain ⟨hhead, htail⟩ := h
      -- a slash on one side has come of a dot, since there was none before
      have hcd : c = d := by
        unfold slashed at hhead
        split at hhead <;> split at hhead
        · next hc hd => rw [hc, hd]
        · exact absurd hhead.symm (hslash d hds.1)
        · exact absurd hhead (hslash c hcs.1)
        · exact hhead
      rw [hcd, ih hcs.2 hds.2 htail]

theorem semicolon_notMem_slashed (hcs : cs.all isTypeNameChar = true) :
    ';' ∉ cs.map slashed := by
  intro hmem
  obtain ⟨c, hc, heq⟩ := List.mem_map.mp hmem
  have hchar := List.all_eq_true.mp hcs c hc
  unfold slashed at heq
  split at heq
  · revert heq
    decide
  · subst heq
    revert hchar
    decide

/-- The descriptor of a plain name does not begin as that of an array does. -/
theorem plainDescriptor_ne_array (hne : cs ≠ []) :
    plainDescriptor cs ++ xs ≠ '[' :: ys := by
  intro h
  rcases plainDescriptor_cases hne with ⟨letter, hletter, hcs⟩ | hcs
  · rw [hcs] at h
    exact (primitives_letter hletter).1 (List.head_eq_of_cons_eq h)
  · rw [hcs] at h
    exact absurd (List.head_eq_of_cons_eq h) (by decide)

theorem plainDescriptor_append_inj (hne : cs ≠ []) (hcs : cs.all isTypeNameChar = true)
    (hne' : ds ≠ []) (hds : ds.all isTypeNameChar = true)
    (h : plainDescriptor cs ++ xs = plainDescriptor ds ++ ys) : cs = ds ∧ xs = ys := by
  rcases plainDescriptor_cases hne with ⟨letter, hletter, hc⟩ | hc <;>
    rcases plainDescriptor_cases hne' with ⟨letter', hletter', hd⟩ | hd <;>
    rw [hc, hd] at h
  · obtain ⟨hsame, htail⟩ := List.cons_eq_cons.mp h
    have hname := congrArg Prod.fst (primitives_letter_inj hletter hletter' hsame)
    exact ⟨String.ofList_injective hname, htail⟩
  · exact absurd (List.head_eq_of_cons_eq h) (primitives_letter hletter).2
  · exact absurd (List.head_eq_of_cons_eq h).symm (primitives_letter hletter').2
  · -- both end at the first semicolon
    rw [List.cons_append, List.cons_append, List.cons.injEq, List.append_assoc, List.append_assoc]
      at h
    obtain ⟨hnames, htail⟩ := Program.eq_of_append_cons_eq (semicolon_notMem_slashed hcs)
      (semicolon_notMem_slashed hds) h.2
    exact ⟨map_slashed_inj hcs hds hnames, htail⟩

/-- A descriptor tells the type and where it ends, whatever follows. -/
theorem descriptorChars_append_inj (hcs : IsPlain cs) (hds : IsPlain ds)
    (h : descriptorChars cs ++ xs = descriptorChars ds ++ ys) : cs = ds ∧ xs = ys := by
  -- by induction on the brackets: the two types have equally many
  induction hcs generalizing ds with
  | name hne hcs =>
    rw [descriptorChars_name hcs] at h
    cases hds with
    | name hne' hds =>
      rw [descriptorChars_name hds] at h
      exact plainDescriptor_append_inj hne hcs hne' hds h
    | array =>
      rw [descriptorChars_array] at h
      exact absurd h (plainDescriptor_ne_array hne)
  | array hcs ih =>
    rw [descriptorChars_array] at h
    cases hds with
    | name hne' hds =>
      rw [descriptorChars_name hds] at h
      exact absurd h.symm (plainDescriptor_ne_array hne')
    | array hds =>
      rw [descriptorChars_array, List.cons_append, List.cons_append, List.cons.injEq] at h
      obtain ⟨rfl, htail⟩ := ih hds h.2
      exact ⟨rfl, htail⟩

theorem descriptorChars_ne_nil (hcs : IsPlain cs) : descriptorChars cs ≠ [] := by
  cases hcs with
  | name hne hcs =>
    rw [descriptorChars_name hcs]
    rcases plainDescriptor_cases hne with ⟨letter, -, hc⟩ | hc <;> rw [hc] <;>
      exact List.cons_ne_nil _ _
  | array =>
    rw [descriptorChars_array]
    exact List.cons_ne_nil _ _

/-- A list of plain types is told from its descriptors in a row. -/
theorem join_descriptor_inj {ts us : List TypeName} (hts : ∀ t ∈ ts, IsPlain t.toList)
    (hus : ∀ u ∈ us, IsPlain u.toList)
    (h : String.join (ts.map descriptor) = String.join (us.map descriptor)) : ts = us := by
  replace h := congrArg String.toList h
  simp only [String.toList_join, List.flatMap_map, descriptor, String.toList_ofList] at h
  induction ts generalizing us with
  | nil =>
    cases us with
    | nil => rfl
    | cons u =>
      have hempty := (List.append_eq_nil_iff.mp h.symm).1
      exact absurd hempty (descriptorChars_ne_nil (hus u List.mem_cons_self))
  | cons t ts ih =>
    cases us with
    | nil =>
      have hempty := (List.append_eq_nil_iff.mp h).1
      exact absurd hempty (descriptorChars_ne_nil (hts t List.mem_cons_self))
    | cons =>
      rw [List.forall_mem_cons] at hts hus
      rw [List.flatMap_cons, List.flatMap_cons] at h
      obtain ⟨hhead, htail⟩ := descriptorChars_append_inj hts.1 hus.1 h
      rw [String.toList_inj.mp hhead, ih hts.2 hus.2 htail]

end TypeName

namespace Program

/-! ## Section 3: Identifiers -/

/-- What is asked of the texts of a method for its identifier to be read in one way only. -/
structure IsLegible (p : Program) (m : MethodRef) : Prop where
  enclosing : ':' ∉ (p.enclosingName m).toList
  name : '(' ∉ (p.method m).name.toList
  params : ∀ x ∈ (p.method m).params, TypeName.IsPlain x.type.toList

/-- An identifier tells the type, the name and the parameter types, whatever programs the methods
    belong to. -/
theorem texts_of_memberIdent {q : Program} (hm : p.IsLegible m) (hk : q.IsLegible k)
    (h : p.memberIdent m = q.memberIdent k) :
    p.enclosingName m = q.enclosingName k ∧ (p.method m).name = (q.method k).name ∧
      (p.method m).params.map Param.type = (q.method k).params.map Param.type := by
  have htexts := congrArg String.toList h
  rw [toList_memberIdent, toList_memberIdent, List.cons.injEq] at htexts
  -- the type is read up to the first colon, the name up to the first bracket
  obtain ⟨htype, hmember⟩ := eq_of_append_cons_eq hm.enclosing hk.enclosing htexts.2
  rw [List.cons.injEq] at hmember
  obtain ⟨hname, hrest⟩ := eq_of_append_cons_eq hm.name hk.name hmember.2
  have hjoin := String.toList_inj.mp (List.append_cancel_right hrest)
  have hdescriptors : ∀ x : Method, (x.params.map fun y => y.type.descriptor) =
      (x.params.map Param.type).map TypeName.descriptor := by
    intro x
    rw [List.map_map]
    rfl
  rw [hdescriptors, hdescriptors] at hjoin
  have hparams := TypeName.join_descriptor_inj (List.forall_mem_map.mpr hm.params)
    (List.forall_mem_map.mpr hk.params) hjoin
  exact ⟨String.toList_inj.mp htype, String.toList_inj.mp hname, hparams⟩

/-- An identifier tells the key. -/
theorem key_of_memberIdent (hm : p.IsLegible m) (hk : p.IsLegible k)
    (h : p.memberIdent m = p.memberIdent k) : p.key m = p.key k := by
  obtain ⟨htype, hname, hparams⟩ := texts_of_memberIdent hm hk h
  simp only [key, Method.signature, htype, hname, hparams]

/-- With legible texts and keys apart, identifiers are apart. -/
theorem eq_of_memberIdent (hkeys : p.KeysApart) (hmlt : m.index < p.methods.length)
    (hklt : k.index < p.methods.length) (hm : p.IsLegible m) (hk : p.IsLegible k)
    (h : p.memberIdent m = p.memberIdent k) : m = k :=
  hkeys m k hmlt hklt (key_of_memberIdent hm hk h)

end Program

end DefaultLowering
