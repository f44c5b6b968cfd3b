import DefaultLowering.Proofs.Lookup
import Mathlib.Data.Finset.Card
import Mathlib.Logic.Relation

/-!
# Subtypes

The supertypes of a type are collected in rounds.  They are exactly the types that links lead to, in
any graph of links (`isSubtype_iff`): a round that finds no new type of the program is the last but
one at most, so that as many rounds as there are types are enough.
-/

namespace DefaultLowering.Program

variable {t u : TypeRef} {ts : List TypeRef} {n : Nat}

/-- Superclass and interface links lead from the first type to the second, in any number. -/
def Inherits (p : Program) : TypeRef → TypeRef → Prop :=
  Relation.ReflTransGen fun t u => u ∈ p.directSupertypes t

/-- What is missing is added at the end. -/
theorem addMissing_eq (xs ys : List TypeRef) : ∃ new, addMissing xs ys = xs ++ new ∧
    (∀ y ∈ new, y ∉ xs) ∧ ∀ y, y ∈ xs ++ new ↔ y ∈ xs ∨ y ∈ ys := by
  induction ys generalizing xs with
  | nil => exact ⟨[], by simp [addMissing], by simp, by simp⟩
  | cons y ys ih =>
    unfold addMissing at ih ⊢
    rw [List.foldl_cons]
    by_cases hy : y ∈ xs
    · obtain ⟨new, heq, hnew, hmem⟩ := ih xs
      rw [if_pos hy]
      refine ⟨new, heq, hnew, fun z => ?_⟩
      rw [hmem, List.mem_cons]
      constructor
      · rintro (hz | hz)
        · exact .inl hz
        · exact .inr (.inr hz)
      · rintro (hz | rfl | hz)
        · exact .inl hz
        · exact .inl hy
        · exact .inr hz
    · obtain ⟨new, heq, hnew, hmem⟩ := ih (xs ++ [y])
      rw [if_neg hy]
      refine ⟨y :: new, by rw [heq, List.append_assoc, List.singleton_append], ?_, fun z => ?_⟩
      · intro z hz hzx
        rcases List.mem_cons.mp hz with rfl | hz
        · exact hy hzx
        · exact hnew z hz (List.mem_append_left _ hzx)
      · rw [List.append_cons, hmem]
        simp only [List.mem_append, List.mem_cons]
        tauto

section

variable {p : Program}

/-- Links from the types lead to none but the types. -/
def Closed (p : Program) (ts : List TypeRef) : Prop :=
  ∀ t ∈ ts, ∀ u ∈ p.directSupertypes t, u ∈ ts

/-- The types of the program that are not among the given ones. -/
def unreached (p : Program) (ts : List TypeRef) : Finset Nat :=
  (Finset.range p.types.length).filter fun i => ⟨i⟩ ∉ ts

/-- Only types of the program have links. -/
theorem lt_of_directSupertypes (h : u ∈ p.directSupertypes t) :
    t.index < p.types.length := by
  by_contra hge
  rw [directSupertypes, type_of_le (Nat.le_of_not_lt hge)] at h
  cases h

/-- Whatever type of the program is added is unreached no more. -/
theorem card_unreached_lt {us : List TypeRef} (hsub : ts ⊆ us) (hu : u ∉ ts) (hadded : u ∈ us)
    (hlt : u.index < p.types.length) :
    (p.unreached us).card < (p.unreached ts).card := by
  refine Finset.card_lt_card ((Finset.ssubset_iff_of_subset ?_).mpr ⟨u.index, ?_, ?_⟩)
  · intro i hi
    rw [unreached, Finset.mem_filter] at hi ⊢
    exact ⟨hi.1, fun hmem => hi.2 (hsub hmem)⟩
  · exact Finset.mem_filter.mpr ⟨Finset.mem_range.mpr hlt, hu⟩
  · intro hi
    exact (Finset.mem_filter.mp hi).2 hadded

/-- One round, and what it leaves to be found. -/
theorem stepUp_cases (ts : List TypeRef) :
    (p.stepUp ts = ts ∧ p.Closed ts) ∨
      (p.stepUp ts).length ≠ ts.length ∧ ¬p.Closed ts ∧
        ((p.unreached (p.stepUp ts)).card < (p.unreached ts).card ∨ p.Closed (p.stepUp ts)) := by
  obtain ⟨new, heq, hnew, hmem⟩ := addMissing_eq ts (ts.flatMap p.directSupertypes)
  have hstep : p.stepUp ts = ts ++ new := heq
  have hlinks : ∀ t ∈ ts, ∀ u ∈ p.directSupertypes t, u ∈ ts ++ new :=
    fun t ht u hu => (hmem u).mpr (.inr (List.mem_flatMap.mpr ⟨t, ht, hu⟩))
  rw [hstep]
  cases new with
  | nil =>
    rw [List.append_nil] at hlinks ⊢
    exact .inl ⟨rfl, hlinks⟩
  | cons x xs =>
    right
    refine ⟨by simp, ?_, ?_⟩
    · -- what was added was found by a link
      intro hclosed
      have hx := (hmem x).mp (by simp)
      rcases hx with hx | hx
      · exact hnew x List.mem_cons_self hx
      · obtain ⟨t, ht, hu⟩ := List.mem_flatMap.mp hx
        exact hnew x List.mem_cons_self (hclosed t ht x hu)
    · by_cases hin : ∃ u ∈ x :: xs, u.index < p.types.length
      · -- a type of the program was found
        obtain ⟨u, hu, hlt⟩ := hin
        exact .inl (card_unreached_lt (List.subset_append_left _ _) (hnew u hu)
          (List.mem_append_right _ hu) hlt)
      · -- from what was found no link leads on
        right
        intro t ht u hu
        rcases List.mem_append.mp ht with ht | ht
        · exact hlinks t ht u hu
        · exact absurd ⟨t, ht, lt_of_directSupertypes hu⟩ hin

/-- With enough rounds no link leads on. -/
theorem closed_climb (h : (p.unreached ts).card < n ∨ p.Closed ts) : p.Closed (p.climb n ts) := by
  induction n generalizing ts with
  | zero => exact h.resolve_left (Nat.not_lt_zero _)
  | succ n ih =>
    rw [climb]
    rcases stepUp_cases (p := p) ts with ⟨hsame, hclosed⟩ | ⟨hlength, hopen, hrest⟩
    · rw [hsame, if_pos rfl]
      exact hclosed
    · rw [if_neg hlength]
      apply ih
      have hfuel := h.resolve_right hopen
      rcases hrest with hless | hclosed
      · left
        omega
      · exact .inr hclosed

theorem mem_climb (ht : t ∈ ts) : t ∈ p.climb n ts := by
  induction n generalizing ts with
  | zero => exact ht
  | succ n ih =>
    rw [climb]
    obtain ⟨new, heq, -, -⟩ := addMissing_eq ts (ts.flatMap p.directSupertypes)
    have hstep : p.stepUp ts = ts ++ new := heq
    split
    · exact ht
    · rw [hstep]
      exact ih (List.mem_append_left _ ht)

/-- Only links are followed. -/
theorem inherits_of_mem_climb (hts : ∀ x ∈ ts, p.Inherits t x) (hu : u ∈ p.climb n ts) :
    p.Inherits t u := by
  induction n generalizing ts with
  | zero => exact hts u hu
  | succ n ih =>
    rw [climb] at hu
    split at hu
    · exact hts u hu
    · refine ih ?_ hu
      intro x hx
      obtain ⟨new, heq, -, hmem⟩ := addMissing_eq ts (ts.flatMap p.directSupertypes)
      rw [show p.stepUp ts = ts ++ new from heq, hmem] at hx
      rcases hx with hx | hx
      · exact hts x hx
      · obtain ⟨y, hy, hlink⟩ := List.mem_flatMap.mp hx
        exact (hts y hy).tail hlink

/-- A type is a subtype of the types that links lead to. -/
theorem isSubtype_iff : p.isSubtype t u = true ↔ p.Inherits t u := by
  unfold isSubtype supertypes
  rw [List.contains_iff_mem]
  constructor
  · refine inherits_of_mem_climb fun x hx => ?_
    rw [List.mem_singleton.mp hx]
    exact .refl
  · intro h
    have hclosed : p.Closed (p.climb p.types.length [t]) := by
      apply closed_climb
      by_cases ht : t.index < p.types.length
      · -- the type itself is reached before the first round
        left
        calc (p.unreached [t]).card < (p.unreached []).card :=
              card_unreached_lt (List.nil_subset _) List.not_mem_nil List.mem_cons_self ht
          _ ≤ (Finset.range p.types.length).card := Finset.card_filter_le _ _
          _ = p.types.length := Finset.card_range _
      · right
        intro x hx u hu
        rw [List.mem_singleton.mp hx] at hu
        exact absurd (lt_of_directSupertypes hu) ht
    induction h with
    | refl => exact mem_climb List.mem_cons_self
    | tail _ hlink ih => exact hclosed _ ih _ hlink

end

end DefaultLowering.Program
