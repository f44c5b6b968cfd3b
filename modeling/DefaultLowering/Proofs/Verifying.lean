import DefaultLowering.Lowering.Run
import DefaultLowering.Proofs.Forwarders
import DefaultLowering.Proofs.Naming

/-!
# What the check of a lowered program looks for

The check finds nothing exactly when no method uses a default method, no member reference of a fragment
bears an identifier that the check knows as that of a default method, and no class lacks a method.

- `Checked`: these conditions;
- `verify_eq_nil_iff`: the check finds nothing if and only if they hold, for every program;
- `lookup_defaults`: the identifiers that the check knows, in a program whose methods have different
  keys, are those that denote a default method.
-/

namespace DefaultLowering.Program

/-! ## Section 1: The nodes of a body -/

section

variable {p : Program} {m : MethodRef}

theorem nodeProblem_call {pos : Pos} {receiver : Expr} {target : MethodRef} {args : List Expr} :
    p.nodeProblem m (.expr (.call pos receiver target args)) = none ↔
      p.isDefault target = false := by
  unfold nodeProblem
  cases htarget : p.isDefault target <;> simp [htarget]

theorem nodeProblem_linkage {r : Linkage} :
    p.nodeProblem m (.linkage r) = none ↔ ∀ d, r.target = some d → p.isDefault d = false := by
  obtain ⟨pos, ident, _ | d⟩ := r
  · simp [nodeProblem]
  · unfold nodeProblem
    cases hd : p.isDefault d <;> simp [hd]

/-- The nodes of an expression are all right when it calls no default method. -/
theorem expr_nodeProblem {x : Expr} :
    (∀ n ∈ x.nodes fun _ => true, p.nodeProblem m n = none) ↔
      ∀ d ∈ x.targets, p.isDefault d = false := by
  induction x with
  | call pos receiver target args ihReceiver ihArgs =>
    have hargs : (∀ n ∈ nodesOf (fun _ => true) args, p.nodeProblem m n = none) ↔
        ∀ d ∈ targetsOf args, p.isDefault d = false := by
      rw [nodesOf_eq_flatMap, targetsOf_eq_flatMap, List.forall_mem_flatMap, List.forall_mem_flatMap]
      exact forall₂_congr ihArgs
    simp only [Expr.nodes, below, if_true, List.forall_mem_cons, List.forall_mem_append,
      nodeProblem_call, ihReceiver, hargs, Expr.targets]
  | _ => simp [Expr.nodes, Expr.targets, nodeProblem]

theorem stmt_nodeProblem {s : Stmt} :
    (∀ n ∈ s.nodes fun _ => true, p.nodeProblem m n = none) ↔
      ∀ d ∈ s.targets, p.isDefault d = false := by
  have hstmt : ∀ s : Stmt, p.nodeProblem m (.stmt s) = none := fun _ => rfl
  induction s with
  | absent => simp [Stmt.nodes, Stmt.targets]
  | block pos ss ih =>
    simp only [Stmt.nodes, below, if_true, List.forall_mem_cons, hstmt, true_and, Stmt.targets]
    rw [nodesOfStmts_eq_flatMap, targetsOfStmts_eq_flatMap, List.forall_mem_flatMap,
      List.forall_mem_flatMap]
    exact forall₂_congr ih
  | ret =>
    simp only [Stmt.nodes, below, if_true, List.forall_mem_cons, hstmt, true_and, expr_nodeProblem,
      Stmt.targets]
  | expr =>
    simp only [Stmt.nodes, below, if_true, List.forall_mem_cons, hstmt, true_and, expr_nodeProblem,
      Stmt.targets]
  | decl =>
    simp only [Stmt.nodes, below, if_true, List.forall_mem_cons, hstmt, true_and, expr_nodeProblem,
      Stmt.targets]

theorem body_nodeProblem {b : Body} :
    (∀ n ∈ b.nodes fun _ => true, p.nodeProblem m n = none) ↔
      ∀ d ∈ b.targets, p.isDefault d = false := by
  have hbody : ∀ b : Body, p.nodeProblem m (.body b) = none := fun _ => rfl
  rcases b with ⟨pos, _ | block⟩ | ⟨pos, func, refs⟩
  · simp [Body.nodes, Body.targets, hbody]
  · simp only [Body.nodes, below, if_true, List.forall_mem_cons, hbody, true_and, stmt_nodeProblem,
      Body.targets, Stmt.targets]
  · simp only [Body.nodes, below, if_true, List.forall_mem_cons, hbody, true_and,
      List.forall_mem_map, nodeProblem_linkage, Body.targets, mem_linkTargets, forall_exists_index,
      and_imp]
    exact ⟨fun h d r hr => h r hr d, fun h r hr d => h d r hr⟩

end

/-! ## Section 2: The whole check -/

/-- What the check asks for, when it knows some identifiers as those of default methods. -/
structure Checked (p : Program) (known : String → Option MethodRef) : Prop where
  /-- No method uses a default method. -/
  clean : ∀ t ∈ p.declared, ∀ m ∈ (p.type t).methods, p.Clean m
  /-- No member reference of a fragment bears a known identifier. -/
  references : ∀ t ∈ p.declared, ∀ m ∈ (p.type t).methods, ∀ pos f refs,
    (p.method m).body = some (.native pos (some f) refs) →
      ∀ ident ∈ f.memberIdents, known ident = none
  /-- The classes that implement an interface declare methods for its default methods. -/
  implementors : ∀ t ∈ p.declared, (p.type t).isInterface = true → ∀ d ∈ p.defaultsOf t,
    ∀ c ∈ p.implementors t, p.Declares c (p.method d).signature

section

variable {p : Program} {defaults : MemberIndex}

theorem fragmentProblems_eq_nil {m : MethodRef} {pos : Pos} {f : Fragment.Function} :
    p.fragmentProblems defaults m pos f = [] ↔
      ∀ ident ∈ f.memberIdents, defaults.lookup ident = none := by
  simp only [fragmentProblems, List.filterMap_eq_nil_iff, Option.map_eq_none_iff]

theorem bodyProblems_eq_nil {m : MethodRef} : p.bodyProblems defaults m = [] ↔
    p.Clean m ∧ ∀ pos f refs, (p.method m).body = some (.native pos (some f) refs) →
      ∀ ident ∈ f.memberIdents, defaults.lookup ident = none := by
  unfold bodyProblems Clean
  rcases hbody : (p.method m).body with _ | b
  · simp
  · simp only [List.append_eq_nil_iff, List.filterMap_eq_nil_iff, body_nodeProblem,
      Option.some.injEq, forall_eq']
    refine and_congr_right fun _ => ?_
    rcases b with ⟨pos, block⟩ | ⟨pos, _ | f, refs⟩
    · simp
    · simp
    · simp only [fragmentProblems_eq_nil, Body.native.injEq, Option.some.injEq]
      constructor
      · rintro h _ _ _ ⟨rfl, rfl, rfl⟩
        exact h
      · exact fun h => h pos f refs ⟨rfl, rfl, rfl⟩

theorem implementorProblems_eq_nil {t : TypeRef} : p.implementorProblems t = [] ↔
    ∀ d ∈ p.defaultsOf t, ∀ c ∈ p.implementors t, p.Declares c (p.method d).signature := by
  simp only [implementorProblems, List.flatMap_eq_nil_iff, List.filterMap_eq_nil_iff]
  refine forall₂_congr fun d _ => forall₂_congr fun c _ => ?_
  rw [← ownMethod_isSome]
  split <;> simp_all

/-- The check finds nothing exactly when everything is as it should be. -/
theorem verify_eq_nil_iff {cache : NameCache} : (p.verify cache).1 = [] ↔
    p.Checked (fun ident => ((cache.index p).1.filter fun e => p.isDefault e.2).lookup ident) := by
  simp only [verify, List.flatMap_eq_nil_iff, typeProblems, List.append_eq_nil_iff,
    bodyProblems_eq_nil]
  constructor
  · intro h
    refine ⟨fun t ht m hm => ((h t ht).1 m hm).1, fun t ht m hm => ((h t ht).1 m hm).2, ?_⟩
    intro t ht hinterface
    have himplementors := (h t ht).2
    rw [if_pos hinterface] at himplementors
    exact implementorProblems_eq_nil.mp himplementors
  · intro h t ht
    refine ⟨fun m hm => ⟨h.clean t ht m hm, h.references t ht m hm⟩, ?_⟩
    split
    · rename_i hinterface
      exact implementorProblems_eq_nil.mpr (h.implementors t ht hinterface)
    · rfl

end

end DefaultLowering.Program

namespace DefaultLowering.NameCache

/-! ## Section 3: The identifiers of default methods -/

theorem lookup_eq_none {α : Type} {l : List (String × α)} {ident : String} :
    l.lookup ident = none ↔ ident ∉ l.map Prod.fst := by
  rw [List.lookup_eq_none_iff, List.mem_map]
  constructor
  · rintro h ⟨e, he, rfl⟩
    simpa using h e he
  · intro h e he
    rw [bne_iff_ne]
    rintro rfl
    exact h ⟨e, he, rfl⟩

/-- No identifier has two entries in an index. -/
theorem nodup_indexMethods {p : Program} {ms : List MethodRef} {index : MemberIndex}
    {c : NameCache} (h : (index.map Prod.fst).Nodup) :
    ((indexMethods p ms index c).1.map Prod.fst).Nodup := by
  induction ms generalizing index c with
  | nil => exact h
  | cons m ms ih =>
    rw [indexMethods]
    generalize c.identOf p m = e
    obtain ⟨ident, c'⟩ := e
    refine ih ?_
    cases hknown : index.lookup ident with
    | some => exact h
    | none =>
      have hfresh := lookup_eq_none.mp hknown
      change ((index ++ [(ident, m)]).map Prod.fst).Nodup
      rw [List.map_append, List.map_singleton, List.nodup_append]
      refine ⟨h, by simp, ?_⟩
      intro old hold new hnew heq
      rw [List.mem_singleton] at hnew
      rw [heq, hnew] at hold
      exact hfresh hold

/-- With different identifiers, what is found among some entries is what is found among all. -/
theorem lookup_filter {α : Type} {l : List (String × α)} (h : (l.map Prod.fst).Nodup)
    (f : String × α → Bool) (ident : String) :
    (l.filter f).lookup ident = (l.lookup ident).filter fun x => f (ident, x) := by
  induction l with
  | nil => rfl
  | cons e l ih =>
    obtain ⟨k, x⟩ := e
    rw [List.map_cons, List.nodup_cons] at h
    by_cases hk : ident = k
    · subst hk
      cases hf : f (ident, x) with
      | true => simp [hf, Option.filter]
      | false =>
        have hrest : l.lookup ident = none := lookup_eq_none.mpr h.1
        simp [hf, ih h.2, hrest, Option.filter]
    · cases hf : f (k, x) with
      | true => simp [hf, List.lookup_cons, beq_eq_false_iff_ne.mpr hk, ih h.2]
      | false => simp [hf, List.lookup_cons, beq_eq_false_iff_ne.mpr hk, ih h.2]

/-- The check knows an identifier if it denotes a default method. -/
theorem lookup_defaults {p : Program} (hp : p.Wired) (hkeys : p.KeysApart) {c : NameCache}
    (hc : c.Faithful p) (ident : String) :
    ((c.index p).1.filter fun e => p.isDefault e.2).lookup ident =
      (p.denoted ident).filter p.isDefault := by
  have hnodup : ((c.index p).1.map Prod.fst).Nodup := nodup_indexMethods (by simp)
  rw [lookup_filter hnodup, lookup_index hkeys hp hc]

end DefaultLowering.NameCache
