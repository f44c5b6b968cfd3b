import DefaultLowering.Proofs.Offers
import DefaultLowering.Proofs.Places
import DefaultLowering.Proofs.Registration
import DefaultLowering.Proofs.Verifying

/-!
# What the check of a program finds

The check of a lowered program is compared with what it looks for, said without traversals: calls at any
place of a typed body, linkage entries, names at any place of a fragment, and pairs of a default method
and a class that has no method for it.

- `Site`, `Reports`: where something can be wrong with a type, and the problem that is then listed;
- `typeProblems_enumerated`: the problems with a type are listed once for every site;
- `gather_eq`: the types may be checked in any order;
- `DefaultNamed`, `lookup_defaults_first`: the names that the check takes for default methods.  An
  identifier is remembered under the key of its method, so that of two methods with the same key only the
  first is found by its own identifier;
- `verify_findings`: the whole check, for programs whose methods have different identifiers.
-/

namespace DefaultLowering

namespace Program

/-! ## Section 1: Names of default methods -/

/-- The first of the methods with its key. -/
def Leads (p : Program) (ms : List MethodRef) (d : MethodRef) : Prop :=
  ms.find? (fun m => p.key m == p.key d) = some d

/-- A default method of the program that bears the identifier, and before which no method with the same
    key is declared. -/
structure DefaultNamed (p : Program) (ident : String) (d : MethodRef) : Prop where
  mem : d ∈ p.declaredMethods
  isDefault : p.isDefault d = true
  memberIdent : p.memberIdent d = ident
  leads : p.Leads p.declaredMethods d

section leads

variable {p : Program} {ms : List MethodRef} {d m : MethodRef}

theorem exists_find_key (hd : d ∈ ms) :
    ∃ k, ms.find? (fun m => p.key m == p.key d) = some k :=
  Option.isSome_iff_exists.mp (List.find?_isSome.mpr ⟨d, hd, by simp⟩)

/-- Later methods do not matter for a method that is there. -/
theorem leads_append (hd : d ∈ ms) : p.Leads (ms ++ [m]) d ↔ p.Leads ms d := by
  obtain ⟨k, hk⟩ := exists_find_key (p := p) hd
  unfold Leads
  rw [List.find?_append, hk, Option.some_or]

/-- With different keys every method is the first with its own. -/
theorem leads_of_nodup (hkeys : (ms.map p.key).Nodup) (hd : d ∈ ms) : p.Leads ms d := by
  obtain ⟨k, hk⟩ := exists_find_key (p := p) hd
  have hkey : p.key k = p.key d := by simpa using List.find?_some hk
  unfold Leads
  rw [hk, List.inj_on_of_nodup_map hkeys (List.mem_of_find?_eq_some hk) hd hkey]

end leads

end Program

namespace NameCache

open Program

/-- Under each key stands the identifier of the first method with it. -/
def FromFirst (c : NameCache) (p : Program) (done : List MethodRef) : Prop :=
  ∀ key, c.idents.lookup key = (done.find? fun m => p.key m == key).map p.memberIdent

variable {p : Program} {done ms : List MethodRef} {c : NameCache} {m : MethodRef}

theorem fromFirst_empty (p : Program) : FromFirst {} p [] := fun _ => rfl

theorem identOf_fromFirst (hc : c.FromFirst p done) (m : MethodRef) :
    (c.identOf p m).1 =
        ((done.find? fun k => p.key k == p.key m).map p.memberIdent).getD (p.memberIdent m) ∧
      (c.identOf p m).2.FromFirst p (done ++ [m]) := by
  unfold identOf
  rw [hc (p.key m)]
  cases hfind : done.find? fun k => p.key k == p.key m with
  | some =>
    refine ⟨rfl, fun key => ?_⟩
    rw [List.find?_append]
    by_cases hkey : key = p.key m
    · subst hkey
      simp [hc (p.key m), hfind]
    · simp [hc key, Ne.symm hkey]
  | none =>
    -- the new method is the first with its key
    refine ⟨rfl, fun key => ?_⟩
    show (c.idents ++ [(p.key m, p.memberIdent m)]).lookup key = _
    rw [List.lookup_append, List.find?_append, hc key]
    by_cases hkey : key = p.key m
    · subst hkey
      simp [hfind]
    · simp [List.lookup_cons, beq_eq_false_iff_ne.mpr hkey, Ne.symm hkey]

/-- An index holds, under their identifiers, the methods that are the first with their keys. -/
def Indexes (p : Program) (done : List MethodRef) (index : MemberIndex) : Prop :=
  ∀ ident d, index.lookup ident = some d ↔
    d ∈ done ∧ p.memberIdent d = ident ∧ p.Leads done d

/-- One more method. -/
theorem Indexes.step {index : MemberIndex} (hc : c.FromFirst p done)
    (hindex : Indexes p done index) (hnew : ∀ d ∈ done, p.memberIdent d ≠ p.memberIdent m) :
    Indexes p (done ++ [m]) (if (index.lookup (c.identOf p m).1).isSome then index
      else index ++ [((c.identOf p m).1, m)]) := by
  have hold : ∀ d ∈ done, (p.Leads (done ++ [m]) d ↔ p.Leads done d) := fun d hd => leads_append hd
  rw [(identOf_fromFirst hc m).1]
  cases hfind : done.find? fun k => p.key k == p.key m with
  | some k =>
    -- a method with the key stands in the index, and the new one is not found
    have hk : k ∈ done := List.mem_of_find?_eq_some hfind
    have hkey : p.key k = p.key m := by simpa using List.find?_some hfind
    have hleads : p.Leads done k := by rw [Leads, hkey]; exact hfind
    have hknown : index.lookup (p.memberIdent k) = some k :=
      (hindex _ _).mpr ⟨hk, rfl, hleads⟩
    have hshadowed : ¬p.Leads (done ++ [m]) m := by
      intro h
      rw [Leads, List.find?_append, hfind] at h
      exact hnew k hk (by rw [Option.some.inj h])
    simp only [Option.map_some, Option.getD_some, hknown, Option.isSome_some, if_true]
    intro ident d
    rw [hindex, List.mem_append, List.mem_singleton]
    constructor
    · rintro ⟨hd, hident, h⟩
      exact ⟨.inl hd, hident, (hold d hd).mpr h⟩
    · rintro ⟨hd | rfl, hident, h⟩
      · exact ⟨hd, hident, (hold d hd).mp h⟩
      · exact absurd h hshadowed
  | none =>
    -- the method gets its own identifier, and no other bears it
    have hfree : index.lookup (p.memberIdent m) = none := by
      cases hlookup : index.lookup (p.memberIdent m) with
      | none => rfl
      | some d =>
        obtain ⟨hd, hident, -⟩ := (hindex _ _).mp hlookup
        exact absurd hident (hnew d hd)
    have hleads : p.Leads (done ++ [m]) m := by
      rw [Leads, List.find?_append, hfind]
      simp
    simp only [Option.map_none, Option.getD_none, hfree, Option.isSome_none, Bool.false_eq_true,
      if_false]
    intro ident d
    rw [List.lookup_append, List.mem_append, List.mem_singleton, Option.or_eq_some_iff, hindex]
    constructor
    · rintro (⟨hd, hident, h⟩ | ⟨-, h⟩)
      · exact ⟨.inl hd, hident, (hold d hd).mpr h⟩
      · rw [List.lookup_cons] at h
        split at h
        · next heq =>
          cases h
          exact ⟨.inr rfl, (beq_iff_eq.mp heq).symm, hleads⟩
        · cases h
    · rintro ⟨hd | rfl, hident, h⟩
      · exact .inl ⟨hd, hident, (hold d hd).mp h⟩
      · subst hident
        exact .inr ⟨hfree, by simp⟩

theorem indexMethods_indexes {index : MemberIndex} (hc : c.FromFirst p done)
    (hindex : Indexes p done index) (hnodup : ((done ++ ms).map p.memberIdent).Nodup) :
    Indexes p (done ++ ms) (indexMethods p ms index c).1 := by
  induction ms generalizing done index c with
  | nil =>
    rw [List.append_nil]
    exact hindex
  | cons m ms ih =>
    have hnew : ∀ d ∈ done, p.memberIdent d ≠ p.memberIdent m := by
      intro d hd
      rw [List.map_append, List.nodup_append] at hnodup
      exact hnodup.2.2 _ (List.mem_map_of_mem hd) _ (List.mem_map_of_mem List.mem_cons_self)
    rw [List.append_cons] at hnodup ⊢
    rw [indexMethods]
    exact ih (identOf_fromFirst hc m).2 (hindex.step hc hnew) hnodup

/-- The names that the check with a fresh cache takes for those of default methods. -/
theorem lookup_defaults_first (hidents : (p.declaredMethods.map p.memberIdent).Nodup)
    (ident : String) (d : MethodRef) :
    ((index {} p).1.filter fun e => p.isDefault e.2).lookup ident = some d ↔
      p.DefaultNamed ident d := by
  have hnodup : ((index {} p).1.map Prod.fst).Nodup := nodup_indexMethods (by simp)
  have hindexes : Indexes p p.declaredMethods (index {} p).1 := by
    have hempty : Indexes p [] [] := fun ident d => by simp
    rw [← List.nil_append p.declaredMethods] at hidents ⊢
    exact indexMethods_indexes (fromFirst_empty p) hempty hidents
  rw [lookup_filter hnodup, Option.filter_eq_some_iff, hindexes]
  exact ⟨fun ⟨⟨hd, hident, hleads⟩, hdefault⟩ => ⟨hd, hdefault, hident, hleads⟩,
    fun h => ⟨⟨h.mem, h.memberIdent, h.leads⟩, h.isDefault⟩⟩

end NameCache

namespace Program

/-! ## Section 2: Sites -/

/-- Where something can be wrong. -/
inductive Site where
  /-- A node of the typed body or the linkage of a method. -/
  | node (m : MethodRef) (place : List Nat)
  /-- A node of the fragment of a method. -/
  | name (m : MethodRef) (place : List Nat)
  /-- A default method and a class. -/
  | lack (d : MethodRef) (c : TypeRef)

/-- What is wrong with the body of a method, and where. -/
inductive InBody (p : Program) (m : MethodRef) : Site → Problem → Prop
  | call {b : Body} {place : List Nat} {pos : Pos} {receiver : Expr} {target : MethodRef}
      {args : List Expr} (hbody : (p.method m).body = some b)
      (hnode : nodeAt Node.children place (.body b) = some (.expr (.call pos receiver target args)))
      (hd : p.isDefault target = true) :
      InBody p m (.node m place) ⟨pos, p.keyText m, .call (p.keyText target)⟩
  | linkage {pos : Pos} {func : Option Fragment.Function} {refs : List Linkage} {i : Nat}
      {r : Linkage} {d : MethodRef} (hbody : (p.method m).body = some (.native pos func refs))
      (hr : refs[i]? = some r) (htarget : r.target = some d) (hd : p.isDefault d = true) :
      InBody p m (.node m [i]) ⟨r.pos, p.keyText m, .linkage (p.keyText d)⟩
  | name {pos : Pos} {f : Fragment.Function} {refs : List Linkage} {place : List Nat}
      {ident : String} {qualifier : Fragment.Expr} {level : Option Nat} {d : MethodRef}
      (hbody : (p.method m).body = some (.native pos (some f) refs))
      (hnode : nodeAt Fragment.Node.children place (.function f) =
        some (.expr (.name ident qualifier level)))
      (hmember : Fragment.isMemberIdent ident = true) (hd : p.DefaultNamed ident d) :
      InBody p m (.name m place) ⟨pos, p.keyText m, .reference (p.keyText d)⟩

/-- What is wrong with a type, and where. -/
inductive Reports (p : Program) (t : TypeRef) : Site → Problem → Prop
  | body {m : MethodRef} {s : Site} {x : Problem} (hm : m ∈ (p.type t).methods)
      (h : p.InBody m s x) : Reports p t s x
  | lack {d : MethodRef} {c : TypeRef} (hinterface : (p.type t).isInterface = true)
      (hd : d ∈ (p.type t).methods) (hdefault : p.isDefault d = true) (hc : c ∈ p.declared)
      (hclass : (p.type c).isInterface = false) (hinherits : p.Inherits c t)
      (hlack : ¬p.Declares c (p.method d).signature) :
      Reports p t (.lack d c)
        ⟨(p.type c).pos, p.keyText d, .missingMethod (p.type c).name (p.method d).signature⟩

/-! ## Section 3: The body of a method -/

section bodies

variable {p : Program} {m : MethodRef}

/-- Below statements and expressions there are only statements and expressions. -/
theorem nodeAt_ne_linkage {place : List Nat} {n : Node} {r : Linkage}
    (hn : (∃ s, n = .stmt s) ∨ ∃ x, n = .expr x) :
    nodeAt Node.children place n ≠ some (.linkage r) := by
  induction place generalizing n with
  | nil => rcases hn with ⟨s, rfl⟩ | ⟨x, rfl⟩ <;> simp [nodeAt]
  | cons i place ih =>
    rw [nodeAt, ne_eq, Option.bind_eq_some_iff]
    rintro ⟨c, hc, hat⟩
    refine ih ?_ hat
    have hmem := List.mem_of_getElem? hc
    rcases hn with ⟨s, rfl⟩ | ⟨x, rfl⟩
    · cases s with
      | absent => cases hmem
      | block =>
        obtain ⟨s, -, rfl⟩ := List.mem_map.mp hmem
        exact .inl ⟨s, rfl⟩
      | _ => exact .inr ⟨_, List.mem_singleton.mp hmem⟩
    · cases x with
      | call pos receiver =>
        rcases List.mem_cons.mp hmem with rfl | hmem
        · exact .inr ⟨receiver, rfl⟩
        · obtain ⟨x, -, rfl⟩ := List.mem_map.mp hmem
          exact .inr ⟨x, rfl⟩
      | _ => cases hmem

/-- Linkage entries stand right below a native body. -/
theorem nodeAt_linkage {place : List Nat} {b : Body} {r : Linkage} :
    nodeAt Node.children place (.body b) = some (.linkage r) ↔
      ∃ pos func refs i, b = .native pos func refs ∧ place = [i] ∧ refs[i]? = some r := by
  constructor
  · intro hat
    cases place with
    | nil => cases hat
    | cons i place =>
      rw [nodeAt, Option.bind_eq_some_iff] at hat
      obtain ⟨c, hc, hat⟩ := hat
      rcases b with ⟨pos, _ | block⟩ | ⟨pos, func, refs⟩
      · cases hc
      · have hstmt := List.mem_singleton.mp (List.mem_of_getElem? hc)
        exact absurd hat (nodeAt_ne_linkage (.inl ⟨_, hstmt⟩))
      · rw [Node.children, List.getElem?_map, Option.map_eq_some_iff] at hc
        obtain ⟨r', hr', rfl⟩ := hc
        cases place with
        | nil =>
          cases hat
          exact ⟨pos, func, refs, i, rfl, rfl, hr'⟩
        | cons => cases hat
  · rintro ⟨pos, func, refs, i, rfl, rfl, hr⟩
    simp [nodeAt, Node.children, hr]

theorem nodeProblem_eq_some {n : Node} {x : Problem} : p.nodeProblem m n = some x ↔
    (∃ pos receiver target args, n = .expr (.call pos receiver target args) ∧
      p.isDefault target = true ∧ x = ⟨pos, p.keyText m, .call (p.keyText target)⟩) ∨
    ∃ r d, n = .linkage r ∧ r.target = some d ∧ p.isDefault d = true ∧
      x = ⟨r.pos, p.keyText m, .linkage (p.keyText d)⟩ := by
  constructor
  · intro h
    unfold nodeProblem at h
    split at h
    · next pos receiver target args =>
      split at h
      · next hd => exact .inl ⟨pos, receiver, target, args, rfl, hd, (Option.some.inj h).symm⟩
      · cases h
    · next pos ident target =>
      split at h
      · next hd => exact .inr ⟨_, target, rfl, rfl, hd, (Option.some.inj h).symm⟩
      · cases h
    · cases h
  · rintro (⟨pos, receiver, target, args, rfl, hd, rfl⟩ | ⟨⟨pos, ident, _⟩, d, rfl, rfl, hd, rfl⟩)
    · simp [nodeProblem, hd]
    · simp [nodeProblem, hd]

theorem InBody.cases {s : Site} {x : Problem} (h : p.InBody m s x) :
    (∃ place, s = .node m place) ∨ ∃ place, s = .name m place := by
  cases h with
  | call | linkage => exact .inl ⟨_, rfl⟩
  | name => exact .inr ⟨_, rfl⟩

/-- The calls and linkage entries of a body. -/
theorem nodes_enumerated {b : Body} (hbody : (p.method m).body = some b) :
    Enumerated (fun s x => (∃ place, s = .node m place) ∧ p.InBody m s x)
      ((b.nodes fun _ => true).filterMap (p.nodeProblem m)) := by
  have hentry : ∀ n : Node, n.kind = none → p.nodeProblem m n = none := by
    intro n hn
    cases hproblem : p.nodeProblem m n with
    | none => rfl
    | some =>
      rcases nodeProblem_eq_some.mp hproblem with ⟨_, _, _, _, rfl, -⟩ | ⟨_, _, rfl, -⟩ <;> cases hn
  refine ((Node.enumerated hentry (.body b)).map (f := Site.node m) ?_).congr fun s x => ?_
  · intro place place' h
    exact (Site.node.inj h).2
  constructor
  · rintro ⟨place, rfl, n, hn, hproblem⟩
    refine ⟨⟨place, rfl⟩, ?_⟩
    rcases nodeProblem_eq_some.mp hproblem with ⟨pos, receiver, target, args, rfl, hd, rfl⟩ |
      ⟨r, d, rfl, htarget, hd, rfl⟩
    · exact .call hbody hn hd
    · obtain ⟨pos, func, refs, i, rfl, rfl, hr⟩ := nodeAt_linkage.mp hn
      exact .linkage hbody hr htarget hd
  · rintro ⟨⟨place, rfl⟩, h⟩
    refine ⟨place, rfl, ?_⟩
    cases h with
    | call hbody' hnode hd =>
      rw [hbody] at hbody'
      cases hbody'
      exact ⟨_, hnode, nodeProblem_eq_some.mpr (.inl ⟨_, _, _, _, rfl, hd, rfl⟩)⟩
    | linkage hbody' hr htarget hd =>
      rw [hbody] at hbody'
      cases hbody'
      exact ⟨_, nodeAt_linkage.mpr ⟨_, _, _, _, rfl, rfl, hr⟩,
        nodeProblem_eq_some.mpr (.inr ⟨_, _, rfl, htarget, hd, rfl⟩)⟩

variable {defaults : MemberIndex}
  (hdefaults : ∀ ident d, defaults.lookup ident = some d ↔ p.DefaultNamed ident d)

include hdefaults

/-- The names of a fragment. -/
theorem fragmentProblems_enumerated {pos : Pos} {f : Fragment.Function} {refs : List Linkage}
    (hbody : (p.method m).body = some (.native pos (some f) refs)) :
    Enumerated (fun s x => (∃ place, s = .name m place) ∧ p.InBody m s x)
      (p.fragmentProblems defaults m pos f) := by
  unfold fragmentProblems Fragment.Function.memberIdents
  rw [List.filterMap_filter]
  refine ((Fragment.Node.enumerated _ (.function f)).map (f := Site.name m) ?_).congr fun s x => ?_
  · intro place place' h
    exact (Site.name.inj h).2
  constructor
  · rintro ⟨place, rfl, n, hn, hentry⟩
    refine ⟨⟨place, rfl⟩, ?_⟩
    obtain ⟨ident, hident, hknown⟩ := Option.bind_eq_some_iff.mp hentry
    obtain ⟨qualifier, level, rfl⟩ := Fragment.Node.ident?_eq_some hident
    split at hknown
    · next hmember =>
      obtain ⟨d, hd, rfl⟩ := Option.map_eq_some_iff.mp hknown
      exact .name hbody hn hmember ((hdefaults _ _).mp hd)
    · cases hknown
  · rintro ⟨⟨place, rfl⟩, h⟩
    refine ⟨place, rfl, ?_⟩
    cases h with
    | name hbody' hnode hmember hd =>
      rw [hbody] at hbody'
      cases hbody'
      refine ⟨_, hnode, ?_⟩
      simp [Fragment.Node.ident?, hmember, (hdefaults _ _).mpr hd]

/-- The problems with a body are listed once for every site. -/
theorem bodyProblems_enumerated (m : MethodRef) :
    Enumerated (p.InBody m) (p.bodyProblems defaults m) := by
  unfold bodyProblems
  rcases hbody : (p.method m).body with _ | b
  · refine .nil fun s x h => ?_
    cases h with
    | call hbody' | linkage hbody' | name hbody' =>
      rw [hbody] at hbody'
      cases hbody'
  have hnodes := nodes_enumerated hbody
  -- without a fragment there are no names
  have honly : (∀ pos f refs, b ≠ .native pos (some f) refs) →
      Enumerated (p.InBody m) ((b.nodes fun _ => true).filterMap (p.nodeProblem m) ++ []) := by
    intro hother
    rw [List.append_nil]
    refine hnodes.congr fun s x => ⟨fun h => h.2, fun h => ⟨?_, h⟩⟩
    cases h with
    | call | linkage => exact ⟨_, rfl⟩
    | name hbody' =>
      rw [hbody] at hbody'
      exact absurd (Option.some.inj hbody') (hother _ _ _)
  rcases b with ⟨pos, block⟩ | ⟨pos, _ | f, refs⟩
  · exact honly (by simp)
  · exact honly (by simp)
  · refine (hnodes.append (fragmentProblems_enumerated hdefaults hbody) ?_).congr fun s x => ?_
    · rintro s x y ⟨⟨place, rfl⟩, -⟩ ⟨⟨place', h⟩, -⟩
      cases h
    · constructor
      · rintro (⟨-, h⟩ | ⟨-, h⟩) <;> exact h
      · intro h
        exact h.cases.imp (fun hs => ⟨hs, h⟩) fun hs => ⟨hs, h⟩

end bodies

/-! ## Section 4: A type -/

section types

variable {p : Program} {t : TypeRef}

/-- The problem with a default method and a class, if the class lacks the method. -/
def lackProblem (p : Program) (d : MethodRef) (c : TypeRef) : Option Problem :=
  if (p.ownMethod? c (p.method d).signature).isSome then none
  else some ⟨(p.type c).pos, p.keyText d,
    .missingMethod (p.type c).name (p.method d).signature⟩

theorem lackProblem_eq_some {d : MethodRef} {c : TypeRef} {x : Problem} :
    p.lackProblem d c = some x ↔ ¬p.Declares c (p.method d).signature ∧
      x = ⟨(p.type c).pos, p.keyText d,
        .missingMethod (p.type c).name (p.method d).signature⟩ := by
  unfold lackProblem
  rw [← ownMethod_isSome]
  split
  · next hown => simp [hown]
  · next hown => simp [hown, eq_comm]

/-- The classes that lack methods. -/
theorem implementorProblems_enumerated (htypes : p.declared.Nodup)
    (hmethods : (p.type t).methods.Nodup) (hinterface : (p.type t).isInterface = true) :
    Enumerated (fun s x => (∃ d c, s = .lack d c) ∧ p.Reports t s x) (p.implementorProblems t) := by
  have hclasses : ∀ d, Enumerated
      (fun s x => ∃ c ∈ p.implementors t, s = Site.lack d c ∧ p.lackProblem d c = some x)
      ((p.implementors t).filterMap (p.lackProblem d)) := by
    intro d
    rw [List.filterMap_eq_flatMap_toList]
    refine .flatMap (fun c _ => .option (Site.lack d c) _) ((htypes.filter _).imp ?_)
    rintro c c' hne _ _ _ ⟨rfl, -⟩ ⟨heq, -⟩
    exact hne (Site.lack.inj heq).2
  -- a site names both the method and the class, so that no pair is met twice
  have hpairs : Enumerated (fun s x => ∃ d ∈ p.defaultsOf t, ∃ c ∈ p.implementors t,
      s = Site.lack d c ∧ p.lackProblem d c = some x) (p.implementorProblems t) := by
    refine .flatMap (fun d _ => hclasses d) ((hmethods.filter _).imp ?_)
    rintro d d' hne _ _ _ ⟨c, -, rfl, -⟩ ⟨c', -, heq, -⟩
    exact hne (Site.lack.inj heq).1
  refine hpairs.congr fun s x => ?_
  simp only [mem_implementors_iff, isSubtype_iff, lackProblem_eq_some, defaultsOf, List.mem_filter]
  constructor
  · rintro ⟨d, ⟨hd, hdefault⟩, c, ⟨hc, hclass, hinherits⟩, rfl, hlack, rfl⟩
    exact ⟨⟨d, c, rfl⟩, .lack hinterface hd hdefault hc hclass hinherits hlack⟩
  · rintro ⟨⟨d, c, rfl⟩, h⟩
    cases h with
    | body hm h => cases h
    | lack _ hd hdefault hc hclass hinherits hlack =>
      exact ⟨d, ⟨hd, hdefault⟩, c, ⟨hc, hclass, hinherits⟩, rfl, hlack, rfl⟩

/-- The problems with a type are listed once for every site. -/
theorem typeProblems_enumerated {defaults : MemberIndex}
    (hdefaults : ∀ ident d, defaults.lookup ident = some d ↔ p.DefaultNamed ident d)
    (htypes : p.declared.Nodup) (hmethods : (p.type t).methods.Nodup) :
    Enumerated (p.Reports t) (p.typeProblems defaults t) := by
  have hbodies : Enumerated (fun s x => ∃ m ∈ (p.type t).methods, p.InBody m s x)
      ((p.type t).methods.flatMap (p.bodyProblems defaults)) := by
    -- a site names the method whose body it is in
    refine .flatMap (fun m _ => bodyProblems_enumerated hdefaults m) (hmethods.imp ?_)
    intro m m' hne s x y h h'
    rcases h.cases with ⟨place, rfl⟩ | ⟨place, rfl⟩ <;>
      rcases h'.cases with ⟨place', heq⟩ | ⟨place', heq⟩ <;> cases heq <;> exact hne rfl
  have hlacks : Enumerated (fun s x => (∃ d c, s = .lack d c) ∧ p.Reports t s x)
      (if (p.type t).isInterface then p.implementorProblems t else []) := by
    split
    · next hinterface => exact implementorProblems_enumerated htypes hmethods hinterface
    · next hclass =>
      refine .nil ?_
      rintro s x ⟨⟨d, c, rfl⟩, h⟩
      cases h with
      | body hm h => cases h
      | lack hinterface => exact hclass hinterface
  refine (hbodies.append hlacks ?_).congr fun s x => ?_
  · rintro s x y ⟨m, -, h⟩ ⟨⟨d, c, rfl⟩, -⟩
    cases h
  · constructor
    · rintro (⟨m, hm, h⟩ | ⟨-, h⟩)
      · exact .body hm h
      · exact h
    · intro h
      cases h with
      | body hm h => exact .inl ⟨_, hm, h⟩
      | lack hinterface hd hdefault hc hclass hinherits hlack =>
        exact .inr ⟨⟨_, _, rfl⟩, .lack hinterface hd hdefault hc hclass hinherits hlack⟩

end types

/-! ## Section 5: The whole check -/

/-- No use of a default method is left, and every class has methods of its own. -/
structure FreeOfDefaults (p : Program) : Prop where
  calls : ∀ t ∈ p.declared, ∀ m ∈ (p.type t).methods, ∀ b, (p.method m).body = some b →
    ∀ place pos receiver target args,
      nodeAt Node.children place (.body b) = some (.expr (.call pos receiver target args)) →
        p.isDefault target = false
  linkage : ∀ t ∈ p.declared, ∀ m ∈ (p.type t).methods, ∀ pos func refs,
    (p.method m).body = some (.native pos func refs) →
      ∀ r ∈ refs, ∀ d, r.target = some d → p.isDefault d = false
  names : ∀ t ∈ p.declared, ∀ m ∈ (p.type t).methods, ∀ pos f refs,
    (p.method m).body = some (.native pos (some f) refs) → ∀ place ident qualifier level,
      nodeAt Fragment.Node.children place (.function f) =
          some (.expr (.name ident qualifier level)) →
        Fragment.isMemberIdent ident = true → ∀ d, ¬p.DefaultNamed ident d
  implementors : ∀ t ∈ p.declared, (p.type t).isInterface = true → ∀ d ∈ (p.type t).methods,
    p.isDefault d = true → ∀ c ∈ p.declared, (p.type c).isInterface = false → p.Inherits c t →
      p.Declares c (p.method d).signature

/-- The answers of the checks when they end in some order.  The check of each type writes its answer
    into a slot of its own. -/
def gather (found : TypeRef → List Problem) (types : List TypeRef) (order : List Nat) :
    List Problem :=
  (order.foldl (fun slots i => slots.set i ((types[i]?.map found).getD []))
    (List.replicate types.length [])).flatten

section whole

variable {p : Program}

theorem freeOfDefaults_iff : p.FreeOfDefaults ↔ ∀ t ∈ p.declared, ∀ s x, ¬p.Reports t s x := by
  constructor
  · intro h t ht s x hreport
    cases hreport with
    | body hm hbody =>
      cases hbody with
      | call hbody hnode hd => simp [h.calls t ht _ hm _ hbody _ _ _ _ _ hnode] at hd
      | linkage hbody hr htarget hd =>
        simp [h.linkage t ht _ hm _ _ _ hbody _ (List.mem_of_getElem? hr) _ htarget] at hd
      | name hbody hnode hmember hd =>
        exact h.names t ht _ hm _ _ _ hbody _ _ _ _ hnode hmember _ hd
    | lack hinterface hd hdefault hc hclass hinherits hlack =>
      exact hlack (h.implementors t ht hinterface _ hd hdefault _ hc hclass hinherits)
  · intro h
    refine ⟨?_, ?_, ?_, ?_⟩
    · intro t ht m hm b hbody place pos receiver target args hnode
      rw [← Bool.not_eq_true]
      exact fun hd => h t ht _ _ (.body hm (.call hbody hnode hd))
    · intro t ht m hm pos func refs hbody r hr d htarget
      obtain ⟨i, hi⟩ := List.mem_iff_getElem?.mp hr
      rw [← Bool.not_eq_true]
      exact fun hd => h t ht _ _ (.body hm (.linkage hbody hi htarget hd))
    · intro t ht m hm pos f refs hbody place ident qualifier level hnode hmember d hd
      exact h t ht _ _ (.body hm (.name hbody hnode hmember hd))
    · intro t ht hinterface d hd hdefault c hc hclass hinherits
      by_contra hlack
      exact h t ht _ _ (.lack hinterface hd hdefault hc hclass hinherits hlack)

/-- Every slot that a check of the order writes has its answer in the end. -/
theorem getElem_foldl_set {α : Type} (answer : Nat → α) (order : List Nat) (slots : List α) (j : Nat) :
    (order.foldl (fun slots i => slots.set i (answer i)) slots)[j]? =
      if j ∈ order ∧ j < slots.length then some (answer j) else slots[j]? := by
  induction order generalizing slots with
  | nil => simp
  | cons i order ih =>
    rw [List.foldl_cons, ih, List.length_set, List.getElem?_set]
    by_cases hij : i = j
    · subst hij
      by_cases hlt : i < slots.length <;> simp [hlt]
    · simp [hij, Ne.symm hij]

/-- The order in which the checks end makes no difference. -/
theorem gather_eq {found : TypeRef → List Problem} {types : List TypeRef} {order : List Nat}
    (horder : order.Perm (List.range types.length)) :
    gather found types order = types.flatMap found := by
  unfold gather
  rw [List.flatMap_def]
  congr 1
  ext1 j
  simp only [getElem_foldl_set, horder.mem_iff, List.mem_range, List.length_replicate,
    List.getElem?_map, and_self]
  by_cases hj : j < types.length
  · simp [hj]
  · simp [hj]

/-- For a program that declares no type twice (`Registered.once`) and whose methods have different
    identifiers, the check with a fresh cache finds nothing if and only if no use of a default method is
    left.  Otherwise it lists one problem for each site, type by type, in whatever order the checks of the
    types end.  Of a default method the check knows the identifier if no method with the same key is
    declared before it; so it knows all of them in a program without methods of the same key. -/
theorem verify_findings (htypes : p.declared.Nodup)
    (hidents : (p.declaredMethods.map p.memberIdent).Nodup) :
    ((p.verify {}).1 = [] ↔ p.FreeOfDefaults) ∧
    (∃ found, (∀ t ∈ p.declared, Enumerated (p.Reports t) (found t)) ∧
      (p.verify {}).1 = p.declared.flatMap found ∧
      ∀ order, order.Perm (List.range p.declared.length) →
        gather found p.declared order = (p.verify {}).1) ∧
    ((p.declaredMethods.map p.key).Nodup → ∀ ident d, p.DefaultNamed ident d ↔
      d ∈ p.declaredMethods ∧ p.isDefault d = true ∧ p.memberIdent d = ident) := by
  -- a method that a type had twice would have one identifier for two entries
  have hmethods : ∀ t ∈ p.declared, (p.type t).methods.Nodup := by
    intro t ht
    refine List.Sublist.nodup ?_ (List.Nodup.of_map _ hidents)
    unfold declaredMethods
    rw [List.flatMap_def]
    exact List.sublist_flatten_of_mem (List.mem_map_of_mem (f := fun t => (p.type t).methods) ht)
  have hfound : ∀ t ∈ p.declared, Enumerated (p.Reports t) (p.typeProblems
      ((NameCache.index {} p).1.filter fun e => p.isDefault e.2) t) := fun t ht =>
    typeProblems_enumerated (NameCache.lookup_defaults_first hidents) htypes (hmethods t ht)
  have hverify : (p.verify {}).1 = p.declared.flatMap (p.typeProblems
      ((NameCache.index {} p).1.filter fun e => p.isDefault e.2)) := rfl
  refine ⟨?_, ⟨_, hfound, hverify, fun order horder => ?_⟩, fun hkeys ident d => ?_⟩
  · rw [hverify, List.flatMap_eq_nil_iff, freeOfDefaults_iff]
    exact forall₂_congr fun t ht => (hfound t ht).eq_nil_iff
  · rw [hverify]
    exact gather_eq horder
  · exact ⟨fun h => ⟨h.mem, h.isDefault, h.memberIdent⟩,
      fun ⟨hd, hdefault, hident⟩ => ⟨hd, hdefault, hident, leads_of_nodup hkeys hd⟩⟩

end whole

theorem verify_findings_greeting : greetingProgram.declared.Nodup ∧
    (greetingProgram.declaredMethods.map greetingProgram.memberIdent).Nodup ∧
    (greetingProgram.verify {}).1 ≠ [] ∧ ¬greetingProgram.FreeOfDefaults := by
  have htypes : greetingProgram.declared.Nodup := greeting_loaded.fresh.types_nodup
  have hidents : (greetingProgram.declaredMethods.map greetingProgram.memberIdent).Nodup := by
    decide +kernel
  have hproblems : (greetingProgram.verify {}).1 ≠ [] := by decide +kernel
  exact ⟨htypes, hidents, hproblems, mt (verify_findings htypes hidents).1.mpr hproblems⟩

/-- An interface with a method of one parameter, whose type has a comma in its name, and a default method
    of two parameters.  They have the same key.  A class refers to the default method. -/
def sameKeys : Program :=
  after [
    .newType ⟨{ name := "T", kind := .interfaceType, pos := default }, rfl, rfl⟩,
    .newMethod ⟨{
      name := "a", result := "void", pos := default
      params := [⟨"p", "x,y", false, default⟩] }, rfl, rfl⟩,
    .newMethod ⟨{
      name := "a", result := "void", pos := default
      params := [⟨"p", "x", false, default⟩, ⟨"q", "y", false, default⟩]
      body := some (.code default (some ⟨default, [.ret default .absent]⟩)) }, rfl, rfl⟩,
    .addMethod ⟨0⟩ ⟨0⟩, .addMethod ⟨0⟩ ⟨1⟩, .addType ⟨0⟩,
    .newType ⟨{ name := "U", kind := .classType, pos := default }, rfl, rfl⟩,
    .newMethod ⟨{
      name := "use", result := "void", pos := default
      params := [⟨"t", "T", false, default⟩]
      native := true
      body := some (.native default (some (.mk "use" ["t"] ["t"] (.block [.expr
        (.call (.name "@T::a(Lx;Ly;)" (.name "t" .absent (some 0)) none)
          [.literal "1", .literal "2"])]))) []) }, rfl, rfl⟩,
    .addMethod ⟨1⟩ ⟨2⟩, .addType ⟨1⟩]

/-- The check finds nothing although a fragment bears the identifier of a default method, and all
    identifiers are different. -/
theorem verify_sameKeys :
    sameKeys.declared.Nodup ∧ (sameKeys.declaredMethods.map sameKeys.memberIdent).Nodup ∧
    (sameKeys.verify {}).1 = [] ∧ ⟨1⟩ ∈ sameKeys.declaredMethods ∧ sameKeys.isDefault ⟨1⟩ = true ∧
    ∃ pos f refs qualifier, (sameKeys.method ⟨2⟩).body = some (.native pos (some f) refs) ∧
      nodeAt Fragment.Node.children [0, 0, 0, 0] (.function f) =
        some (.expr (.name (sameKeys.memberIdent ⟨1⟩) qualifier none)) := by
  have hident : sameKeys.memberIdent ⟨1⟩ = "@T::a(Lx;Ly;)" := by decide +kernel
  refine ⟨by decide +kernel, by decide +kernel, by decide +kernel, by decide +kernel,
    by decide +kernel, default, _, [], .name "t" .absent (some 0), rfl, ?_⟩
  rw [hident]
  rfl

end Program

end DefaultLowering
