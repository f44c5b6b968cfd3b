import DefaultLowering.Proofs.Offers
import DefaultLowering.Proofs.Registration

/-!
# Searching for a supertype

Whether links lead from one type to another can also be found out by going up depth first, first to the
superclass and then to the interfaces, and never entering a type twice.  A type that was seen before is
taken for a dead end although not everything behind it need have been looked at: what has not is still
pending (`Searching`).

- `search`: the search, which ends in every graph because fewer and fewer types are unseen;
- `search_iff`: it succeeds exactly if links lead from a pending type to the one searched for;
- `isSubtype_reaches`: subtypes are what the search finds, and implementors are found by it.
-/

namespace DefaultLowering.Program

variable {p : Program}

/-! ## Section 1: The search -/

/-- What is no type of the program was not there to be reached. -/
theorem unreached_cons_of_le {x : TypeRef} (hle : p.types.length ≤ x.index)
    (seen : List TypeRef) : p.unreached (x :: seen) = p.unreached seen := by
  unfold unreached
  refine Finset.filter_congr fun i hi => ?_
  have hne : (⟨i⟩ : TypeRef) ≠ x := by
    rintro rfl
    exact absurd (Finset.mem_range.mp hi) (Nat.not_lt.mpr hle)
  rw [List.mem_cons, or_iff_right hne]

/-- Goes up from the pending types, one after the other, until it comes to `u`. -/
def search (p : Program) (u : TypeRef) (seen : List TypeRef) : List TypeRef → Bool
  | [] => false
  | x :: rest =>
    if x ∈ seen then search p u seen rest
    else if x = u then true
    else search p u (x :: seen) (p.directSupertypes x ++ rest)
  termination_by pending => ((p.unreached seen).card, pending.length)
  decreasing_by
    · exact Prod.Lex.right _ (Nat.lt_succ_self _)
    · rename_i hseen _
      by_cases hlt : x.index < p.types.length
      · exact Prod.Lex.left _ _ (card_unreached_lt (List.subset_cons_self _ _) hseen
          List.mem_cons_self hlt)
      · -- no link leads on from there
        have hle := Nat.le_of_not_lt hlt
        rw [unreached_cons_of_le hle, directSupertypes, type_of_le hle]
        exact Prod.Lex.right _ (Nat.lt_succ_self _)

/-! ## Section 2: What has been ruled out -/

/-- The type has not been seen, and every link from what has been seen leads to something that was
    seen or is pending. -/
structure Searching (p : Program) (u : TypeRef) (seen pending : List TypeRef) : Prop where
  unseen : u ∉ seen
  frontier : ∀ x ∈ seen, ∀ y ∈ p.directSupertypes x, y ∈ seen ∨ y ∈ pending

section

variable {u x : TypeRef} {seen rest : List TypeRef}

theorem Searching.start (p : Program) (u : TypeRef) (pending : List TypeRef) :
    p.Searching u [] pending :=
  ⟨List.not_mem_nil, fun _ hx => absurd hx List.not_mem_nil⟩

/-- A type that was seen is passed over. -/
theorem Searching.skip (h : p.Searching u seen (x :: rest)) (hx : x ∈ seen) :
    p.Searching u seen rest := by
  refine ⟨h.unseen, fun y hy z hz => ?_⟩
  rcases h.frontier y hy z hz with hseen | hpending
  · exact .inl hseen
  · rcases List.mem_cons.mp hpending with rfl | hrest
    · exact .inl hx
    · exact .inr hrest

/-- A type that is entered is seen, and its links are pending. -/
theorem Searching.enter (h : p.Searching u seen (x :: rest)) (hu : x ≠ u) :
    p.Searching u (x :: seen) (p.directSupertypes x ++ rest) := by
  refine ⟨List.not_mem_cons_of_ne_of_not_mem (Ne.symm hu) h.unseen, fun y hy z hz => ?_⟩
  rcases List.mem_cons.mp hy with rfl | hy
  · exact .inr (List.mem_append_left _ hz)
  · rcases h.frontier y hy z hz with hseen | hpending
    · exact .inl (List.mem_cons_of_mem _ hseen)
    · rcases List.mem_cons.mp hpending with rfl | hrest
      · exact .inl List.mem_cons_self
      · exact .inr (List.mem_append_right _ hrest)

/-- Whoever gets from a type that was seen to the one searched for comes past a pending one. -/
theorem Searching.leaves {pending : List TypeRef} (h : p.Searching u seen pending) (hx : x ∈ seen)
    (hinherits : p.Inherits x u) : ∃ y ∈ pending, p.Inherits y u := by
  -- along the links, up to the first type that has not been seen
  induction hinherits using Relation.ReflTransGen.head_induction_on with
  | refl => exact absurd hx h.unseen
  | head hlink hrest ih =>
    rcases h.frontier _ hx _ hlink with hseen | hpending
    · exact ih hseen
    · exact ⟨_, hpending, hrest⟩

end

/-- The search succeeds exactly if links lead from a pending type to the one searched for. -/
theorem search_iff {u : TypeRef} {seen pending : List TypeRef} (h : p.Searching u seen pending) :
    p.search u seen pending = true ↔ ∃ x ∈ pending, p.Inherits x u := by
  fun_induction search p u seen pending with
  | case1 => simp
  | case2 seen x rest hx ih =>
    have hrest := h.skip hx
    rw [ih hrest]
    constructor
    · rintro ⟨y, hy, hinherits⟩
      exact ⟨y, List.mem_cons_of_mem _ hy, hinherits⟩
    · rintro ⟨y, hy, hinherits⟩
      rcases List.mem_cons.mp hy with rfl | hy
      · exact hrest.leaves hx hinherits
      · exact ⟨y, hy, hinherits⟩
  | case3 => exact iff_of_true rfl ⟨u, List.mem_cons_self, .refl⟩
  | case4 seen x rest hx hu ih =>
    rw [ih (h.enter hu)]
    constructor
    · rintro ⟨y, hy, hinherits⟩
      rcases List.mem_append.mp hy with hlink | hy
      · exact ⟨x, List.mem_cons_self, .head hlink hinherits⟩
      · exact ⟨y, List.mem_cons_of_mem _ hy, hinherits⟩
    · rintro ⟨y, hy, hinherits⟩
      rcases List.mem_cons.mp hy with rfl | hy
      · -- links to another type begin with one of its own
        rcases hinherits.cases_head with heq | ⟨z, hlink, hrest⟩
        · exact absurd heq hu
        · exact ⟨z, List.mem_append_left _ hlink, hrest⟩
      · exact ⟨y, List.mem_append_right _ hy, hinherits⟩

/-! ## Section 3: Subtypes and implementors -/

theorem isSubtype_eq_search (t u : TypeRef) : p.isSubtype t u = p.search u [] [t] := by
  rw [Bool.eq_iff_iff, isSubtype_iff, search_iff (.start p u [t])]
  simp

/-- The classes of the program from which links lead to the type, in the order of declaration. -/
structure ListsImplementors (p : Program) (i : TypeRef) (cs : List TypeRef) : Prop where
  ordered : cs.Sublist p.declared
  mem : ∀ c, c ∈ cs ↔ c ∈ p.declared ∧ (p.type c).isInterface = false ∧ p.Inherits c i
  /-- Each is listed as often as it is declared. -/
  count : ∀ c ∈ cs, cs.count c = p.declared.count c

theorem listsImplementors (p : Program) (i : TypeRef) :
    p.ListsImplementors i (p.implementors i) := by
  refine ⟨List.filter_sublist, fun c => ?_, fun c hc => ?_⟩
  · rw [mem_implementors_iff, isSubtype_iff]
  · exact List.count_filter (List.mem_filter.mp hc).2

/-- In every graph of links, with whatever cycles, a depth-first search ends, and it finds out whether
    one type is a subtype of another, which is whether links lead there.  So subtyping is reflexive and
    transitive.  The implementors of a type are the classes from which links lead to it, in the order of
    declaration, and however a program was put together, none of them is listed twice. -/
theorem isSubtype_reaches :
    (∀ (p : Program) (t u : TypeRef), p.isSubtype t u = p.search u [] [t] ∧
      (p.isSubtype t u = true ↔ p.Inherits t u)) ∧
    (∀ (p : Program) (t : TypeRef), p.isSubtype t t = true) ∧
    (∀ (p : Program) (t u v : TypeRef), p.isSubtype t u = true → p.isSubtype u v = true →
      p.isSubtype t v = true) ∧
    (∀ (p : Program) (i : TypeRef), p.ListsImplementors i (p.implementors i)) ∧
    ∀ (ops : List Operation) (i : TypeRef), ((after ops).implementors i).Nodup := by
  refine ⟨fun p t u => ⟨isSubtype_eq_search t u, isSubtype_iff⟩, ?_, ?_, listsImplementors, ?_⟩
  · intro p t
    exact isSubtype_iff.mpr .refl
  · intro p t u v htu huv
    exact isSubtype_iff.mpr ((isSubtype_iff.mp htu).trans (isSubtype_iff.mp huv))
  · intro ops i
    exact (registered_empty.steps ops).1.once.filter _

/-- Two classes that extend each other, an interface that extends itself, and a class that has nothing to
    do with them. -/
def tangled : List Operation :=
  [.newType ⟨{ name := "Hen", kind := .classType, pos := default }, rfl, rfl⟩,
    .newType ⟨{ name := "Egg", kind := .classType, pos := default }, rfl, rfl⟩,
    .newType ⟨{ name := "Laid", kind := .interfaceType, pos := default }, rfl, rfl⟩,
    .newType ⟨{ name := "Stone", kind := .classType, pos := default }, rfl, rfl⟩,
    .setSupertypes ⟨0⟩ (some ⟨1⟩) [], .setSupertypes ⟨1⟩ (some ⟨0⟩) [⟨2⟩],
    .setSupertypes ⟨2⟩ none [⟨2⟩], .addType ⟨3⟩, .addType ⟨1⟩, .addType ⟨2⟩, .addType ⟨0⟩]

theorem isSubtype_reaches_tangled :
    (after tangled).isSubtype ⟨0⟩ ⟨1⟩ = true ∧ (after tangled).isSubtype ⟨1⟩ ⟨2⟩ = true ∧
      (after tangled).search ⟨2⟩ [] [⟨0⟩] = true ∧ (after tangled).search ⟨3⟩ [] [⟨0⟩] = false ∧
      (after tangled).implementors ⟨2⟩ = [⟨1⟩, ⟨0⟩] := by
  obtain ⟨hsearch, -, htrans, -, -⟩ := isSubtype_reaches
  have hfirst : (after tangled).isSubtype ⟨0⟩ ⟨1⟩ = true := by decide
  have hsecond : (after tangled).isSubtype ⟨1⟩ ⟨2⟩ = true := by decide
  refine ⟨hfirst, hsecond, ?_, ?_, by decide⟩
  · rw [← (hsearch _ _ _).1]
    exact htrans _ _ _ _ hfirst hsecond
  · rw [← (hsearch _ _ _).1]
    decide

end DefaultLowering.Program
