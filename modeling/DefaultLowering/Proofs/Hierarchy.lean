import DefaultLowering.Proofs.Declaring
import DefaultLowering.Proofs.Subtypes
import Mathlib.Data.Fintype.Card
import Mathlib.Data.Fintype.EquivFin
import Mathlib.Data.Fintype.Sets

/-!
# The hierarchy of a description

The round of linking looks up the names that a description gives as supertypes, and the check behind
it refuses classes that are among their own superclasses.

- `Attaches`: the links of a type lead to the types that are named, which are of the right kind;
- `linkTypes_attaches`: the round of linking gives every type such links;
- `isCyclic_iff`: the check, which follows all links, finds the classes that superclasses alone lead
  back to;
- `wellFounded_superclass`: without such classes all chains of superclasses end;
- `exists_cyclic_iff`: the classes on cycles can be told from the description.
-/

namespace DefaultLowering.Description

open Program

variable {t : TypeRef} {ds : List TypeDecl} {d : TypeDecl} {p : Program}

/-! ## Section 1: Looking up supertypes -/

/-- The names of some types. -/
def typeNames (p : Program) (ts : List TypeRef) : List String := ts.map fun t => (p.type t).name

section

variable {p : Program} {ds : List TypeDecl} {d : TypeDecl}

/-- What is found under a name has the name. -/
theorem typeNamed_of_byName (h : p.byName = p.declared.map fun t => ((p.type t).name, t))
    {name : String} (ht : p.typeNamed name = some t) :
    t ∈ p.declared ∧ (p.type t).name = name := by
  rw [Program.typeNamed, h, List.lookup_eq_some_iff] at ht
  obtain ⟨front, back, heq, -⟩ := ht
  have hmem : (name, t) ∈ p.declared.map fun u => ((p.type u).name, u) := by rw [heq]; simp
  obtain ⟨u, hu, hpair⟩ := List.mem_map.mp hmem
  cases hpair
  exact ⟨hu, rfl⟩

theorem Listed.typeNamed (h : Listed p ds) {name : String} (ht : p.typeNamed name = some t) :
    t ∈ p.declared ∧ (p.type t).name = name :=
  typeNamed_of_byName h.byName ht

theorem resolveInterfaces_ok (h : Listed p ds) {names : List String} {ts : List TypeRef}
    (hok : resolveInterfaces p d names = .ok ts) :
    typeNames p ts = names ∧ ∀ u ∈ ts, u ∈ p.declared ∧ (p.type u).isInterface = true := by
  induction names generalizing ts with
  | nil =>
    cases hok
    exact ⟨rfl, List.forall_mem_nil _⟩
  | cons name names ih =>
    unfold resolveInterfaces at hok
    split at hok
    · cases hok
    · rename_i t ht
      split at hok
      · rename_i hinterface
        obtain ⟨rest, hrest, hok⟩ := bind_eq_ok.mp hok
        cases hok
        obtain ⟨hnames, hall⟩ := ih hrest
        obtain ⟨hdeclared, hname⟩ := h.typeNamed ht
        refine ⟨?_, List.forall_mem_cons.mpr ⟨⟨hdeclared, hinterface⟩, hall⟩⟩
        show (p.type t).name :: typeNames p rest = name :: names
        rw [hname, hnames]
      · cases hok

theorem resolveSuperclass_ok (h : Listed p ds) {s : Option TypeRef}
    (hok : resolveSuperclass p d = .ok s) :
    typeNames p s.toList = d.extending ∧
      ∀ u ∈ s.toList, u ∈ p.declared ∧ (p.type u).isInterface = false := by
  unfold resolveSuperclass at hok
  split at hok
  · rename_i hnone
    cases hok
    exact ⟨hnone.symm, List.forall_mem_nil _⟩
  · rename_i name hone
    split at hok
    · cases hok
    · rename_i t ht
      split at hok
      · cases hok
      · rename_i hclass
        cases hok
        obtain ⟨hdeclared, hname⟩ := h.typeNamed ht
        refine ⟨?_, ?_⟩
        · show [(p.type t).name] = d.extending
          rw [hname, hone]
        · intro u hu
          rw [Option.toList_some, List.mem_singleton] at hu
          rw [hu]
          exact ⟨hdeclared, Bool.eq_false_iff.mpr hclass⟩
  · cases hok

end

/-! ## Section 2: Linking -/

/-- The links of the type lead to the types that are named, a class to a class and interfaces, an
    interface to interfaces. -/
structure Attaches (p : Program) (t : TypeRef) (d : TypeDecl) : Prop where
  superName : typeNames p (p.type t).super.toList =
    if (p.type t).isInterface then [] else d.extending
  interfaceNames : typeNames p (p.type t).interfaces =
    if (p.type t).isInterface then d.extending else d.implementing
  super : ∀ u ∈ (p.type t).super.toList, u ∈ p.declared ∧ (p.type u).isInterface = false
  interfaces : ∀ u ∈ (p.type t).interfaces, u ∈ p.declared ∧ (p.type u).isInterface = true

/-- The programs differ in the links of their types. -/
structure Reparented (p q : Program) : Prop where
  declared : q.declared = p.declared
  byName : q.byName = p.byName
  methods : q.methods = p.methods
  length : q.types.length = p.types.length
  type : ∀ t, SameOutline (p.type t) (q.type t)

section

variable {p q r : Program}

theorem Reparented.refl (p : Program) : Reparented p p :=
  ⟨rfl, rfl, rfl, rfl, fun _ => ⟨_, _, _, rfl⟩⟩

theorem Reparented.trans (h : Reparented p q) (h' : Reparented q r) : Reparented p r := by
  refine ⟨h'.declared.trans h.declared, h'.byName.trans h.byName, h'.methods.trans h.methods,
    h'.length.trans h.length, ?_⟩
  intro t
  obtain ⟨a, s, is, ht⟩ := h.type t
  obtain ⟨a', s', is', ht'⟩ := h'.type t
  exact ⟨a', s', is', by rw [ht', ht]⟩

theorem Reparented.keepsOutlines (h : Reparented p q) : KeepsOutlines p q := by
  refine ⟨fun t _ => h.type t, ?_⟩
  intro t _ m _ d hd
  have heq : q.method m = p.method m := by simp only [method, h.methods]
  rw [heq]
  exact hd

theorem Reparented.listed (h : Reparented p q) (hp : Listed p ds) : Listed q ds :=
  hp.kept h.keepsOutlines h.declared h.byName

theorem Reparented.isInterface (h : Reparented p q) (t : TypeRef) :
    (q.type t).isInterface = (p.type t).isInterface := by
  obtain ⟨a, s, is, ht⟩ := h.type t
  rw [ht]
  rfl

theorem Reparented.typeNames (h : Reparented p q) (ts : List TypeRef) :
    typeNames q ts = typeNames p ts := by
  refine List.map_congr_left fun t _ => ?_
  obtain ⟨a, s, is, ht⟩ := h.type t
  rw [ht]

/-- The links of a type may be looked up before or after the links of others are made. -/
theorem Attaches.of_reparented (h : Reparented p q)
    (hsuper : Description.typeNames p (q.type t).super.toList =
      if (p.type t).isInterface then [] else d.extending)
    (hinterfaces : Description.typeNames p (q.type t).interfaces =
      if (p.type t).isInterface then d.extending else d.implementing)
    (hclass : ∀ u ∈ (q.type t).super.toList, u ∈ p.declared ∧ (p.type u).isInterface = false)
    (hifaces : ∀ u ∈ (q.type t).interfaces, u ∈ p.declared ∧ (p.type u).isInterface = true) :
    Attaches q t d := by
  refine ⟨?_, ?_, ?_, ?_⟩
  · rw [h.typeNames, h.isInterface, hsuper]
  · rw [h.typeNames, h.isInterface, hinterfaces]
  · intro u hu
    rw [h.declared, h.isInterface]
    exact hclass u hu
  · intro u hu
    rw [h.declared, h.isInterface]
    exact hifaces u hu

theorem Attaches.kept (h : Attaches p t d) (hpq : Reparented p q) (ht : q.type t = p.type t) :
    Attaches q t d := by
  refine .of_reparented hpq ?_ ?_ ?_ ?_
  · rw [ht]
    exact h.superName
  · rw [ht]
    exact h.interfaceNames
  · rw [ht]
    exact h.super
  · rw [ht]
    exact h.interfaces

end

theorem reparented_updateType {f : DeclaredType → DeclaredType} (hf : ∀ x, SameOutline x (f x)) :
    Reparented p (p.updateType t f) := by
  refine ⟨rfl, rfl, rfl, length_types_updateType .., ?_⟩
  intro u
  rcases type_updateType_cases (p := p) t u f with hsame | hnew
  · rw [hsame]
    exact ⟨_, _, _, rfl⟩
  · rw [hnew]
    exact hf _

theorem linkType_attaches {q : Program} (hp : Listed p ds) (hlt : t.index < p.types.length)
    (hfree : (p.type t).super = none) (hok : linkType p t d = .ok q) :
    Reparented p q ∧ (∀ u, u ≠ t → q.type u = p.type u) ∧ Attaches q t d := by
  unfold linkType at hok
  -- an interface has no superclass: what it extends are its interfaces
  by_cases hinterface : (p.type t).isInterface = true
  · rw [if_pos hinterface] at hok
    obtain ⟨himplementing, hok⟩ := guard_ok hok
    obtain ⟨supers, hsupers, hok⟩ := bind_eq_ok.mp hok
    cases hok
    have hpq : Reparented p (p.updateType t fun x => { x with interfaces := supers }) :=
      reparented_updateType fun x => ⟨_, _, _, rfl⟩
    obtain ⟨hnames, hall⟩ := resolveInterfaces_ok hp hsupers
    refine ⟨hpq, fun u hu => type_updateType_ne _ hu, .of_reparented hpq ?_ ?_ ?_ ?_⟩
    · rw [type_updateType_self _ hlt, hfree, if_pos hinterface]
      rfl
    · rw [type_updateType_self _ hlt, if_pos hinterface]
      exact hnames
    · rw [type_updateType_self _ hlt, hfree]
      exact List.forall_mem_nil _
    · rw [type_updateType_self _ hlt]
      exact hall
  · rw [if_neg hinterface] at hok
    obtain ⟨s, hs, hok⟩ := bind_eq_ok.mp hok
    obtain ⟨is, his, hok⟩ := bind_eq_ok.mp hok
    cases hok
    have hpq : Reparented p (p.updateType t fun x => { x with super := s, interfaces := is }) :=
      reparented_updateType fun x => ⟨_, _, _, rfl⟩
    obtain ⟨hname, hclass⟩ := resolveSuperclass_ok hp hs
    obtain ⟨hnames, hall⟩ := resolveInterfaces_ok hp his
    refine ⟨hpq, fun u hu => type_updateType_ne _ hu, .of_reparented hpq ?_ ?_ ?_ ?_⟩
    · rw [type_updateType_self _ hlt, if_neg hinterface]
      exact hname
    · rw [type_updateType_self _ hlt, if_neg hinterface]
      exact hnames
    · rw [type_updateType_self _ hlt]
      exact hclass
    · rw [type_updateType_self _ hlt]
      exact hall

/-- After the round every type in it has its links. -/
theorem linkTypes_attaches {es : List (TypeRef × TypeDecl)} {q : Program} (hp : Listed p ds)
    (hes : ∀ e ∈ es, e.1.index < p.types.length ∧ (p.type e.1).super = none)
    (hnodup : (es.map Prod.fst).Nodup) (hok : linkTypes es p = .ok q) :
    Reparented p q ∧ (∀ u, u ∉ es.map Prod.fst → q.type u = p.type u) ∧
      ∀ e ∈ es, Attaches q e.1 e.2 := by
  induction es generalizing p with
  | nil =>
    cases hok
    exact ⟨.refl _, fun _ _ => rfl, List.forall_mem_nil _⟩
  | cons e es ih =>
    obtain ⟨t, d⟩ := e
    rw [List.forall_mem_cons] at hes
    obtain ⟨⟨hlt, hfree⟩, hes⟩ := hes
    rw [List.map_cons, List.nodup_cons] at hnodup
    obtain ⟨hnew, hnodup⟩ := hnodup
    obtain ⟨p₁, hd, hok⟩ := bind_eq_ok.mp hok
    obtain ⟨hpp₁, hother, hself⟩ := linkType_attaches hp hlt hfree hd
    -- no type is linked twice, so that the types to come still have no superclass
    have hes₁ : ∀ e ∈ es, e.1.index < p₁.types.length ∧ (p₁.type e.1).super = none := by
      intro e he
      have hne : e.1 ≠ t := fun heq => hnew (heq ▸ List.mem_map.mpr ⟨e, he, rfl⟩)
      rw [hpp₁.length, hother e.1 hne]
      exact hes e he
    obtain ⟨hp₁q, hothers, hall⟩ := ih (hpp₁.listed hp) hes₁ hnodup hok
    refine ⟨hpp₁.trans hp₁q, ?_, ?_⟩
    · intro u hu
      rw [List.map_cons, List.mem_cons, not_or] at hu
      rw [hothers u hu.2, hother u hu.1]
    · rw [List.forall_mem_cons]
      exact ⟨hself.kept hp₁q (hothers t hnew), hall⟩

/-- The program of a description, as it is before it is checked for cycles and gets its bodies. -/
def linked (file : String) (x : Description) : Except Problem Program := do
  let p ← declareTypes file x.types {}
  linkTypes (p.declared.zip x.types) p

/-- The type is the one that is described. -/
structure Describes (p : Program) (t : TypeRef) (d : TypeDecl) : Prop extends
  Outlines p t d, Attaches p t d

/-- Declaring and linking gives the types that are described. -/
theorem linked_describes {file : String} {x : Description} (hok : x.linked file = .ok p) :
    p.Drafted [] ∧ Listed p x.types ∧ List.Forall₂ (Describes p) p.declared x.types := by
  obtain ⟨p₁, hdeclare, hlink⟩ := bind_eq_ok.mp hok
  obtain ⟨h₁, hlisted, hfree⟩ :=
    declareTypes_drafted drafted_empty listed_empty unlinked_empty hdeclare
  rw [List.nil_append] at hlisted
  have hlength := hlisted.outlines.length_eq
  have hfst : (p₁.declared.zip x.types).map Prod.fst = p₁.declared :=
    List.map_fst_zip (Nat.le_of_eq hlength)
  have hes : ∀ e ∈ p₁.declared.zip x.types,
      e.1.index < p₁.types.length ∧ (p₁.type e.1).super = none := by
    intro e he
    have hmem := (List.of_mem_zip he).1
    exact ⟨h₁.lt _ (List.mem_append_left _ hmem), hfree _ hmem⟩
  have hnodup : ((p₁.declared.zip x.types).map Prod.fst).Nodup := by
    rw [hfst]
    have hbefore := h₁.types_nodup
    rwa [List.append_nil] at hbefore
  obtain ⟨hpp₁, -, hall⟩ := linkTypes_attaches hlisted hes hnodup hlink
  have hp := hpp₁.listed hlisted
  refine ⟨(linkTypes_drafted h₁ hlink).1, hp, ?_⟩
  refine List.forall₂_iff_zip.mpr ⟨by rw [hpp₁.declared, hlength], ?_⟩
  intro t d htd
  refine ⟨List.forall₂_zip hp.outlines htd, ?_⟩
  rw [hpp₁.declared] at htd
  exact hall (t, d) htd

end DefaultLowering.Description

namespace DefaultLowering.Program

open Description

variable {t : TypeRef}

/-! ## Section 3: Superclasses -/

/-- Links lead from types of the program to types of the program: from all types to interfaces, and
    from classes to one more class. -/
structure Hierarchy (p : Program) : Prop where
  interfaces : ∀ t ∈ p.declared, ∀ u ∈ (p.type t).interfaces,
    u ∈ p.declared ∧ (p.type u).isInterface = true
  super : ∀ t ∈ p.declared, ∀ u, (p.type t).super = some u →
    (p.type t).isInterface = false ∧ u ∈ p.declared ∧ (p.type u).isInterface = false

/-- The second type is the superclass of the first. -/
def Superclass (p : Program) (t u : TypeRef) : Prop :=
  t ∈ p.declared ∧ (p.type t).super = some u

section

variable {p : Program} (hp : p.Hierarchy)

include hp

/-- Links do not lead from an interface to a class. -/
theorem Hierarchy.isInterface_of_inherits {u : TypeRef} (h : p.Inherits t u)
    (ht : t ∈ p.declared ∧ (p.type t).isInterface = true) :
    u ∈ p.declared ∧ (p.type u).isInterface = true := by
  induction h with
  | refl => exact ht
  | tail _ hlink ih =>
    rw [directSupertypes, List.mem_append, Option.mem_toList] at hlink
    rcases hlink with hsuper | hinterface
    · have hclass := (hp.super _ ih.1 _ hsuper).1
      rw [ih.2] at hclass
      cases hclass
    · exact hp.interfaces _ ih.1 _ hinterface

/-- Links that lead from a type to a class are links to superclasses. -/
theorem Hierarchy.superclasses_of_inherits {u : TypeRef} (h : p.Inherits t u) (ht : t ∈ p.declared)
    (hu : (p.type u).isInterface = false) :
    Relation.ReflTransGen p.Superclass t u := by
  induction h using Relation.ReflTransGen.head_induction_on with
  | refl => exact .refl
  | head hlink hrest ih =>
    rw [directSupertypes, List.mem_append, Option.mem_toList] at hlink
    rcases hlink with hsuper | hinterface
    · exact .head ⟨ht, hsuper⟩ (ih (hp.super _ ht _ hsuper).2.1)
    · have hiface := (hp.isInterface_of_inherits hrest (hp.interfaces _ ht _ hinterface)).2
      rw [hu] at hiface
      cases hiface

/-- The check finds the classes that are among their own superclasses. -/
theorem Hierarchy.isCyclic_iff (ht : t ∈ p.declared) :
    isCyclic p t = true ↔ Relation.TransGen p.Superclass t t := by
  unfold isCyclic
  constructor
  · intro h
    split at h
    · rename_i s hs
      obtain ⟨hclass, hdeclared, -⟩ := hp.super t ht s hs
      exact .head' ⟨ht, hs⟩ (hp.superclasses_of_inherits (isSubtype_iff.mp h) hdeclared hclass)
    · cases h
  · intro h
    obtain ⟨s, ⟨-, hs⟩, hrest⟩ := Relation.TransGen.head'_iff.mp h
    rw [hs]
    have hlinks : ∀ v w, p.Superclass v w → w ∈ p.directSupertypes v := by
      intro v w hvw
      rw [directSupertypes, List.mem_append, Option.mem_toList]
      exact .inl hvw.2
    exact isSubtype_iff.mpr (Relation.ReflTransGen.mono hlinks _ _ hrest)

/-- Without classes on cycles every chain of superclasses ends. -/
theorem Hierarchy.wellFounded_superclass
    (hacyclic : ∀ t, ¬ Relation.TransGen p.Superclass t t) :
    WellFounded fun u t => p.Superclass t u := by
  -- there are finitely many types, and none is its own superclass in any number of steps
  let above : {t // t ∈ p.declared} → {t // t ∈ p.declared} → Prop :=
    fun u t => Relation.TransGen p.Superclass t u
  have : IsTrans _ above := ⟨fun _ _ _ h h' => h'.trans h⟩
  have : Std.Irrefl above := ⟨fun t => hacyclic t⟩
  have hfinite : WellFounded above := Finite.wellFounded_of_trans_of_irrefl above
  have hdeclared : ∀ t : {t // t ∈ p.declared}, Acc (fun u t => p.Superclass t u) t := by
    intro t
    induction t using hfinite.induction with
    | h t ih =>
      refine ⟨_, fun u hu => ?_⟩
      exact ih ⟨u, (hp.super t t.2 u hu.2).2.1⟩ (.single hu)
  refine ⟨fun t => ⟨t, fun u hu => ?_⟩⟩
  exact hdeclared ⟨u, (hp.super t hu.1 u hu.2).2.1⟩

end

end DefaultLowering.Program

namespace DefaultLowering.Description

open Program

/-! ## Section 4: Cycles in a description -/

/-- The description has a class of the first name that extends one of the second. -/
def Extends (x : Description) (a b : String) : Prop :=
  ∃ d ∈ x.types, kindOf? d.kind = some .classType ∧ d.name = a ∧ d.extending = [b]

section

variable {p : Program} {x : Description}

theorem hierarchy_of_describes (h : List.Forall₂ (Describes p) p.declared x.types) :
    p.Hierarchy := by
  refine ⟨?_, ?_⟩
  · intro t ht u hu
    obtain ⟨d, -, hd⟩ := exists_of_forall₂_left h ht
    exact hd.interfaces u hu
  · intro t ht u hu
    obtain ⟨d, -, hd⟩ := exists_of_forall₂_left h ht
    have hname := hd.superName
    rw [hu] at hname
    refine ⟨?_, hd.super u (by rw [hu]; exact List.mem_singleton_self u)⟩
    -- an interface extends interfaces only
    by_contra hinterface
    rw [if_pos (Bool.eq_true_of_not_eq_false hinterface)] at hname
    cases hname

theorem kindOf_class {d : TypeDecl} {t : TypeRef} (h : Describes p t d) :
    kindOf? d.kind = some .classType ↔ (p.type t).isInterface = false := by
  rw [h.kind, Option.some.injEq, DeclaredType.isInterface]
  cases (p.type t).kind <;> decide

/-- The superclasses of the program are those of the description. -/
theorem extends_of_superclass (h : List.Forall₂ (Describes p) p.declared x.types) (t u : TypeRef)
    (htu : p.Superclass t u) : x.Extends (p.type t).name (p.type u).name := by
  obtain ⟨ht, hu⟩ := htu
  obtain ⟨d, hmem, hd⟩ := exists_of_forall₂_left h ht
  have hclass := ((hierarchy_of_describes h).super t ht u hu).1
  have hname := hd.superName
  rw [hu, hclass] at hname
  exact ⟨d, hmem, (kindOf_class hd).mpr hclass, hd.name.symm, hname.symm⟩

theorem superclass_of_extends (hp : p.Drafted [])
    (h : List.Forall₂ (Describes p) p.declared x.types) {t : TypeRef} (ht : t ∈ p.declared)
    {b : String} (hb : x.Extends (p.type t).name b) :
    ∃ u ∈ p.declared, (p.type u).name = b ∧ p.Superclass t u := by
  obtain ⟨d, hmem, hkind, hname, hextending⟩ := hb
  obtain ⟨t', ht', hd⟩ := exists_of_forall₂_right h hmem
  -- types are told apart by their names
  obtain rfl : t' = t := hp.name_inj t' ht' t ht (hd.name.trans hname)
  have hsuper := hd.superName
  rw [(kindOf_class hd).mp hkind, hextending] at hsuper
  cases hu : (p.type t').super with
  | none =>
    rw [hu] at hsuper
    cases hsuper
  | some u =>
    rw [hu] at hsuper
    have hdeclared := ((hierarchy_of_describes h).super t' ht u hu).2.1
    exact ⟨u, hdeclared, List.head_eq_of_cons_eq hsuper, ht, hu⟩

/-- A class of the program is among its own superclasses if and only if one of the description is. -/
theorem exists_cyclic_iff (hp : p.Drafted [])
    (h : List.Forall₂ (Describes p) p.declared x.types) :
    (∃ t, Relation.TransGen p.Superclass t t) ↔ ∃ a, Relation.TransGen x.Extends a a := by
  constructor
  · rintro ⟨t, ht⟩
    exact ⟨_, Relation.TransGen.lift _ (extends_of_superclass h) _ _ ht⟩
  · rintro ⟨a, ha⟩
    have hclimb : ∀ b, Relation.TransGen x.Extends a b → ∀ t ∈ p.declared, (p.type t).name = a →
        ∃ u ∈ p.declared, (p.type u).name = b ∧ Relation.TransGen p.Superclass t u := by
      intro b hb t ht hname
      induction hb with
      | single hstep =>
        obtain ⟨u, hu, hb, hsuper⟩ := superclass_of_extends hp h ht (hname ▸ hstep)
        exact ⟨u, hu, hb, .single hsuper⟩
      | tail _ hstep ih =>
        obtain ⟨v, hv, hb, hbelow⟩ := ih
        obtain ⟨u, hu, hc, hsuper⟩ := superclass_of_extends hp h hv (hb ▸ hstep)
        exact ⟨u, hu, hc, hbelow.tail hsuper⟩
    obtain ⟨b, ⟨d, hmem, -, hname, -⟩, -⟩ := Relation.TransGen.head'_iff.mp ha
    obtain ⟨t, ht, hd⟩ := exists_of_forall₂_right h hmem
    obtain ⟨u, hu, hsame, hcycle⟩ := hclimb a ha t ht (hd.name.trans hname)
    obtain rfl : u = t := hp.name_inj u hu t ht (hsame.trans (hd.name.trans hname).symm)
    exact ⟨u, hcycle⟩

end

/-! ## Section 5: The check for cycles -/

theorem checkCycles_ok_iff {p : Program} (hp : p.Hierarchy) :
    checkCycles p = .ok () ↔ ∀ t, ¬ Relation.TransGen p.Superclass t t := by
  unfold checkCycles
  cases hfind : p.declared.find? (isCyclic p) with
  | some t =>
    have hcycle := (hp.isCyclic_iff (List.mem_of_find?_eq_some hfind)).mp (List.find?_some hfind)
    constructor
    · intro h
      cases h
    · intro h
      exact absurd hcycle (h t)
  | none =>
    refine ⟨fun _ t hcycle => ?_, fun _ => rfl⟩
    obtain ⟨u, ⟨ht, -⟩, -⟩ := Relation.TransGen.head'_iff.mp hcycle
    exact List.find?_eq_none.mp hfind t ht ((hp.isCyclic_iff ht).mpr hcycle)

theorem checkCycles_error {p : Program} {e : Problem} (h : checkCycles p = .error e) :
    ∃ line name, e = ⟨line, .cyclicInheritance name⟩ := by
  unfold checkCycles at h
  split at h
  · cases h
    exact ⟨_, _, rfl⟩
  · cases h

end DefaultLowering.Description
