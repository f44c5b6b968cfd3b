import DefaultLowering.Proofs.Places
import DefaultLowering.Proofs.Traversal
import Mathlib.Data.List.Flatten
import Mathlib.Data.List.Perm.Basic

/-!
# The nodes that a traversal shows

A body is traversed in two ways.  One only looks (`Body.nodes`) and meets a node before what is below
it; the other (`walkBody`) shows each node to a visitor that may replace it, after what is below it.  A
fragment has no typed nodes, so for the second a native body is a leaf, while the first also meets its
linkage.

- `Node.bottomUp`: the nodes below a node and the node, each behind its parts;
- `Node.bottomUp_perm`: they are the nodes that are met from above, without the linkage;
- `walkBody_shows`: they are what a visitor is shown that only looks, in this order, and the body stays
  as it is.
-/

namespace DefaultLowering.Program

/-! ## Section 1: From below -/

namespace Node

/-- The nodes one step below a node that are shown before it. -/
def parts : Node → List Node
  | .body (.native ..) => []
  | n => n.children

theorem parts_subset (n : Node) : n.parts ⊆ n.children := by
  unfold parts
  split
  · exact List.nil_subset _
  · exact List.Subset.refl _

/-- The nodes that are there from a node on downward: those below it in order, and then itself. -/
def bottomUp (n : Node) : List Node :=
  n.parts.attach.flatMap (fun c => c.1.bottomUp) ++ (n.kind.map fun _ => n).toList
termination_by sizeOf n
decreasing_by exact n.sizeOf_children c.1 (n.parts_subset c.2)

theorem bottomUp_eq (n : Node) :
    n.bottomUp = n.parts.flatMap bottomUp ++ (n.kind.map fun _ => n).toList := by
  rw [bottomUp, List.flatMap_subtype fun _ _ => rfl, List.unattach_attach]

/-- At no place there is a statement that is absent.  An expression may be. -/
def Whole (n : Node) : Prop := ∀ place, nodeAt children place n ≠ some (.stmt .absent)

theorem Whole.child {n c : Node} (h : n.Whole) (hc : c ∈ n.children) : c.Whole := by
  intro place hplace
  obtain ⟨i, hi⟩ := List.mem_iff_getElem?.mp hc
  refine h (i :: place) ?_
  rw [nodeAt, hi, Option.bind_some, hplace]

theorem Whole.of_children {n : Node} (hn : n ≠ .stmt .absent) (h : ∀ c ∈ n.children, c.Whole) :
    n.Whole := by
  intro place hplace
  cases place with
  | nil => exact hn (Option.some.inj hplace)
  | cons i place =>
    obtain ⟨c, hc, hplace⟩ := Option.bind_eq_some_iff.mp hplace
    exact h c (List.mem_of_getElem? hc) place hplace

theorem whole_expr (x : Expr) : (Node.expr x).Whole := by
  induction x with
  | call pos receiver target args hreceiver hargs =>
    refine .of_children nofun (List.forall_mem_cons.mpr ⟨hreceiver, ?_⟩)
    exact List.forall_mem_map.mpr hargs
  | _ => exact .of_children nofun nofun

/-- Right in front of every node there is what is below it, part after part. -/
def PartsFirst (ns : List Node) : Prop :=
  ∀ before n after, ns = before ++ n :: after → n.parts.flatMap bottomUp <:+ before

theorem PartsFirst.append {ns ms : List Node} (hns : PartsFirst ns) (hms : PartsFirst ms) :
    PartsFirst (ns ++ ms) := by
  intro before n after h
  rcases List.append_eq_append_iff.mp h with ⟨front, rfl, hfront⟩ | ⟨rest, hrest, hn⟩
  · exact (hms front n after hfront).trans (List.suffix_append ns front)
  · cases rest with
    | nil =>
      have hnil := List.suffix_nil.mp (hms [] n after hn.symm)
      rw [hnil]
      exact List.nil_suffix
    | cons k rest =>
      obtain ⟨rfl, -⟩ := List.cons.inj hn
      exact hns before n rest hrest

theorem PartsFirst.flatMap {ns : List Node} {f : Node → List Node}
    (h : ∀ n ∈ ns, PartsFirst (f n)) : PartsFirst (ns.flatMap f) := by
  induction ns with
  | nil =>
    intro before n after hnil
    cases before <;> cases hnil
  | cons n ns ih =>
    rw [List.forall_mem_cons] at h
    rw [List.flatMap_cons]
    exact h.1.append (ih h.2)

theorem partsFirst_bottomUp (n : Node) : PartsFirst n.bottomUp := by
  have hparts : PartsFirst (n.parts.flatMap bottomUp) :=
    .flatMap fun c hc => partsFirst_bottomUp c
  rw [bottomUp_eq]
  cases n.kind with
  | none =>
    rw [Option.map_none, Option.toList_none, List.append_nil]
    exact hparts
  | some =>
    intro before k after h
    -- the node itself stands last
    rcases List.eq_nil_or_concat after with rfl | ⟨after, last, rfl⟩
    · obtain ⟨rfl, hk⟩ := List.append_inj' h rfl
      cases hk
      exact List.suffix_rfl
    · rw [List.concat_eq_append, ← List.cons_append, ← List.append_assoc] at h
      exact hparts before k after (List.append_inj' h rfl).1
termination_by sizeOf n
decreasing_by exact n.sizeOf_children c (n.parts_subset hc)

theorem kind_of_mem_parts {n c : Node} (hc : c ∈ n.parts) : c.kind ≠ some .linkage := by
  have hshape : (∃ s, c = .stmt s) ∨ ∃ x, c = .expr x := by
    unfold parts children at hc
    grind
  rcases hshape with ⟨s, rfl⟩ | ⟨x, rfl⟩
  · cases s <;> nofun
  · cases x <;> nofun

/-- No linkage is shown, and all else that is met from above is. -/
theorem bottomUp_perm (n : Node) (hn : n.kind ≠ some .linkage) :
    n.bottomUp.Perm (n.nodes.filter fun k => k.kind ≠ some .linkage) := by
  have hparts : ∀ c ∈ n.parts, c.bottomUp.Perm (c.nodes.filter fun k => k.kind ≠ some .linkage) :=
    fun c hc => bottomUp_perm c (kind_of_mem_parts hc)
  have hbelow : (n.children.flatMap fun c => c.nodes.filter fun k => k.kind ≠ some .linkage)
      = n.parts.flatMap fun c => c.nodes.filter fun k => k.kind ≠ some .linkage := by
    unfold parts
    split
    · rw [children, List.flatMap_map]
      exact List.flatMap_eq_nil_iff.mpr fun r _ => rfl
    · rfl
  have hown : (n.kind.map fun _ => n).toList.filter (fun k => k.kind ≠ some .linkage)
      = (n.kind.map fun _ => n).toList := by
    rw [List.filter_eq_self]
    intro k hk
    obtain ⟨_, -, rfl⟩ := Option.map_eq_some_iff.mp (Option.mem_toList.mp hk)
    exact decide_eq_true hn
  rw [bottomUp_eq, nodes_eq, List.filter_append, List.filter_flatMap, hbelow, hown]
  exact (List.Perm.flatMap_left _ hparts).append_right _ |>.trans List.perm_append_comm
termination_by sizeOf n
decreasing_by exact n.sizeOf_children c (n.parts_subset hc)

end Node

/-! ## Section 2: Walks that show nodes -/

/-- The visitor only looks: it gives back each node that it is shown, does not relocate the tree and
    finds no fault.  What it does to the program and its own state is its own matter. -/
structure Looking {σ : Type} (leave : Node → Walk σ Node) : Prop where
  node : ∀ n s, ((leave n).run s).1 = n
  fault : ∀ n s, ((leave n).run s).2.fault = s.fault
  moved : ∀ n s, ((leave n).run s).2.moved = s.moved
  ahead : ∀ n s, ((leave n).run s).2.ahead = s.ahead

/-- There is no fault, and the tree is where it was. -/
structure WalkState.Undisturbed {σ : Type} (s : WalkState σ) : Prop where
  fault : s.fault = none
  moved : s.moved = none
  ahead : s.ahead = none

/-- The state in which a visitor that has been shown the given nodes, one after the other, leaves a
    traversal. -/
def WalkState.shown {σ : Type} (leave : Node → Walk σ Node) (s : WalkState σ) (ns : List Node) :
    WalkState σ :=
  ns.foldl (fun s n => ((leave n).run s).2) s

/-- The walk shows the given nodes to the visitor, in this order, and comes to the given result. -/
def Walk.Shows {σ α : Type} (leave : Node → Walk σ Node) (w : Walk σ α) (ns : List Node) (x : α) :
    Prop :=
  ∀ s : WalkState σ, s.Undisturbed → w.Ends s fun y s' => y = x ∧ s' = s.shown leave ns

section

variable {σ : Type} {leave : Node → Walk σ Node}

theorem WalkState.shown_append (s : WalkState σ) (ns ms : List Node) :
    s.shown leave (ns ++ ms) = (s.shown leave ns).shown leave ms :=
  List.foldl_append

theorem WalkState.Undisturbed.shown {s : WalkState σ} (hs : s.Undisturbed) (hleave : Looking leave)
    (ns : List Node) : (s.shown leave ns).Undisturbed := by
  induction ns generalizing s with
  | nil => exact hs
  | cons n ns ih =>
    refine ih ⟨?_, ?_, ?_⟩
    · rw [hleave.fault, hs.fault]
    · rw [hleave.moved, hs.moved]
    · rw [hleave.ahead, hs.ahead]

theorem Looking.ends (hleave : Looking leave) (n : Node) (s : WalkState σ) :
    (leave n).Ends s fun k s' => k = n ∧ s' = s.shown leave [n] :=
  ⟨hleave.node n s, rfl⟩

namespace Walk.Shows

variable {α β : Type}

theorem pure (x : α) : Shows leave (pure x) [] x := fun _ _ => ⟨rfl, rfl⟩

theorem seen (x : Expr) : Shows leave (Walk.seen x) [] x := by
  intro s hs
  refine .bind_get ?_
  rw [hs.ahead]
  exact .pure ⟨rfl, rfl⟩

variable (hleave : Looking leave)

include hleave

theorem bind {w : Walk σ α} {f : α → Walk σ β} {x : α} {y : β} {ns ms : List Node}
    (hw : Shows leave w ns x) (hf : Shows leave (f x) ms y) :
    Shows leave (w >>= f) (ns ++ ms) y := by
  intro s hs
  refine (hw s hs).bind ?_
  rintro _ _ ⟨rfl, rfl⟩
  rw [WalkState.shown_append]
  exact hf _ (hs.shown hleave ns)

/-- Nothing moves, so what is held stays as it is. -/
theorem holding {relocate : Relocation → α → α} {x : α} {rest : Walk σ β} {ns : List Node} {y : β}
    (h : Shows leave rest ns y) : Shows leave (Walk.holding relocate x rest) ns (x, y) := by
  intro s hs
  have hrest : rest.Ends s fun y' s' =>
      (∀ r, s.moved = some r → s'.moved = some r) ∧ y' = y ∧ s' = s.shown leave ns := by
    refine (h s hs).mono fun y' s' hy => ⟨fun r hr => ?_, hy⟩
    rw [hs.moved] at hr
    cases hr
  have hend : Ends (Walk.holding relocate (moved relocate s.moved x) rest) s
      fun z s' => z = (x, y) ∧ s' = s.shown leave ns := by
    refine .holding hrest ?_
    rintro _ _ ⟨rfl, rfl⟩
    rw [(hs.shown hleave ns).moved]
    exact ⟨rfl, rfl⟩
  rw [hs.moved] at hend
  exact hend

theorem leaveExpr (x : Expr) : Shows leave (leaveExpr leave x) [.expr x] x := by
  intro s hs
  refine .leaveExpr hs.fault ((hleave.ends _ s).mono ?_)
  rintro _ _ ⟨rfl, rfl⟩
  exact ⟨x, rfl, rfl, rfl⟩

theorem leaveStmt (x : Stmt) : Shows leave (leaveStmt leave x) [.stmt x] x := by
  intro s hs
  refine .leaveStmt hs.fault ((hleave.ends _ s).mono ?_)
  rintro _ _ ⟨rfl, rfl⟩
  exact ⟨x, rfl, rfl, rfl⟩

theorem leaveBody (x : Body) : Shows leave (leaveBody leave x) [.body x] x := by
  intro s hs
  refine .leaveBody hs.fault ((hleave.ends _ s).mono ?_)
  rintro _ _ ⟨rfl, rfl⟩
  exact ⟨x, rfl, rfl, rfl⟩

end Walk.Shows

/-! ## Section 3: What a body is shown as -/

variable (hleave : Looking leave)

include hleave

theorem walkExprs_shows {xs : List Expr}
    (h : ∀ x ∈ xs, (walkExpr leave x).Shows leave (Node.expr x).bottomUp x) :
    (walkExprs leave xs).Shows leave ((xs.map Node.expr).flatMap Node.bottomUp) xs := by
  induction xs with
  | nil => exact .pure _
  | cons x xs ih =>
    rw [List.forall_mem_cons] at h
    rw [List.map_cons, List.flatMap_cons, ← List.append_nil (List.flatMap ..)]
    exact .bind hleave h.1 (.bind hleave (.holding hleave (ih h.2)) (.pure _))

theorem walkExpr_shows (x : Expr) : (walkExpr leave x).Shows leave (Node.expr x).bottomUp x := by
  rw [Node.bottomUp_eq]
  induction x with
  | absent => exact .pure _
  | call pos receiver target args hreceiver hargs =>
    simp only [← Node.bottomUp_eq] at hreceiver hargs
    change Walk.Shows _ _
      ((Node.expr receiver :: args.map Node.expr).flatMap Node.bottomUp ++ [_]) _
    rw [List.flatMap_cons, List.append_assoc]
    exact .bind hleave hreceiver
      (.bind hleave (.holding hleave (walkExprs_shows hleave hargs)) (.leaveExpr hleave _))
  | _ => exact .bind hleave (.seen _) (.leaveExpr hleave _)

theorem walkStmts_shows {ss : List Stmt}
    (h : ∀ s ∈ ss, (walkStmt leave s).Shows leave (Node.stmt s).bottomUp s) :
    (walkStmts leave ss).Shows leave ((ss.map Node.stmt).flatMap Node.bottomUp) ss := by
  induction ss with
  | nil => exact .pure _
  | cons s ss ih =>
    rw [List.forall_mem_cons] at h
    rw [List.map_cons, List.flatMap_cons, ← List.append_nil (List.flatMap ..)]
    exact .bind hleave h.1 (.bind hleave (.holding hleave (ih h.2)) (.pure _))

theorem walkStmt_shows {s : Stmt} (hs : (Node.stmt s).Whole) :
    (walkStmt leave s).Shows leave (Node.stmt s).bottomUp s := by
  have hexpr : ∀ x, (walkExpr leave x).Shows leave ([Node.expr x].flatMap Node.bottomUp) x := by
    intro x
    rw [List.flatMap_singleton]
    exact walkExpr_shows hleave x
  induction s with
  | absent => exact absurd rfl (hs [])
  | block pos ss ih =>
    have hstmts : (walkStmts leave ss).Shows leave ((ss.map Node.stmt).flatMap Node.bottomUp) ss :=
      walkStmts_shows hleave fun s h => ih s h (hs.child (List.mem_map_of_mem h))
    rw [Node.bottomUp_eq]
    exact .bind hleave hstmts (.leaveStmt hleave _)
  | ret pos x =>
    rw [Node.bottomUp_eq]
    exact .bind hleave (hexpr x) (.leaveStmt hleave _)
  | expr pos x =>
    rw [Node.bottomUp_eq]
    exact .bind hleave (hexpr x) (.leaveStmt hleave _)
  | decl pos v init =>
    rw [Node.bottomUp_eq]
    exact .bind hleave (hexpr init) (.leaveStmt hleave _)

theorem walkBody_shows {b : Body} (hb : (Node.body b).Whole) :
    (walkBody leave b).Shows leave (Node.body b).bottomUp b := by
  rw [Node.bottomUp_eq]
  rcases b with ⟨pos, _ | ⟨blockPos, ss⟩⟩ | ⟨pos, func, refs⟩
  · exact .leaveBody hleave _
  · have hblock : (Node.stmt (.block blockPos ss)).Whole := hb.child List.mem_cons_self
    have hstmts : (walkStmts leave ss).Shows leave ((ss.map Node.stmt).flatMap Node.bottomUp) ss :=
      walkStmts_shows hleave fun s h => walkStmt_shows hleave (hblock.child (List.mem_map_of_mem h))
    change Walk.Shows _ _ ([Node.stmt (.block blockPos ss)].flatMap Node.bottomUp ++ [_]) _
    rw [List.flatMap_singleton, Node.bottomUp_eq, List.append_assoc]
    exact .bind hleave hstmts (.bind hleave (.leaveStmt hleave _) (.leaveBody hleave _))
  · exact .leaveBody hleave _

/-- A visitor that only looks is shown every node of a body that is met from above, except the linkage
    of a fragment, and each as often.  What is below a node is shown right before it: the receiver of a
    call with all that is below it, then each argument, then the call.  The body stays as it is. -/
theorem walkBody_shows_nodes (b : Body) (hb : (Node.body b).Whole) (s : WalkState σ)
    (hs : s.Undisturbed) :
    (walkBody leave b).run s = (b, s.shown leave (Node.body b).bottomUp) ∧
      (Node.body b).bottomUp.Perm
        ((b.nodes fun _ => true).filter fun n => n.kind ≠ some .linkage) ∧
      Node.PartsFirst (Node.body b).bottomUp := by
  have hrun := walkBody_shows hleave hb s hs
  refine ⟨Prod.ext hrun.1 hrun.2, ?_, ?_⟩
  · exact Node.bottomUp_perm (.body b) (by cases b <;> nofun)
  · exact Node.partsFirst_bottomUp (.body b)

end

/-- The visitor that notes the kinds of the nodes that it is shown. -/
def noteKinds (n : Node) : Walk (List Kind) Node := do
  modify fun s => { s with user := s.user ++ n.kind.toList }
  return n

/-- A call with a call as its receiver and another one, without a receiver, as its second argument, and
    then a return without a value. -/
def nestedCalls : Body :=
  .code ⟨"A", 1⟩ (some ⟨⟨"A", 1⟩, [
    .expr ⟨"A", 2⟩ (.call ⟨"A", 2⟩ (.call ⟨"A", 2⟩ (.this ⟨"A", 2⟩ ⟨0⟩) ⟨1⟩ []) ⟨2⟩
      [.param ⟨"A", 2⟩ ⟨⟨0⟩, 0⟩, .call ⟨"A", 2⟩ .absent ⟨3⟩ [.new ⟨"A", 2⟩ ⟨1⟩]]),
    .ret ⟨"A", 3⟩ .absent]⟩)

theorem noteKinds_looking : Looking noteKinds := ⟨fun _ _ => rfl, fun _ _ => rfl, fun _ _ => rfl,
  fun _ _ => rfl⟩

theorem nestedCalls_whole : (Node.body nestedCalls).Whole := by
  refine .of_children nofun (List.forall_mem_singleton.mpr (.of_children nofun ?_))
  refine List.forall_mem_cons.mpr ⟨.of_children nofun ?_, List.forall_mem_singleton.mpr
    (.of_children nofun ?_)⟩
  · exact List.forall_mem_singleton.mpr (Node.whole_expr _)
  · exact List.forall_mem_singleton.mpr (Node.whole_expr _)

/-- The receiver comes first, and the call last. -/
theorem walkBody_shows_nestedCalls :
    ((walkBody noteKinds nestedCalls).run ⟨default, [], ⟨0⟩, none, none, none⟩).2.user =
      [.this, .call, .param, .new, .call, .call, .exprStmt, .ret, .block, .codeBody] ∧
    (walkBody noteKinds nestedCalls).run ⟨default, [], ⟨0⟩, none, none, none⟩ =
      (nestedCalls, WalkState.shown noteKinds ⟨default, [], ⟨0⟩, none, none, none⟩
        (Node.body nestedCalls).bottomUp) ∧
    (Node.body nestedCalls).bottomUp.Perm
      ((nestedCalls.nodes fun _ => true).filter fun n => n.kind ≠ some .linkage) ∧
    Node.PartsFirst (Node.body nestedCalls).bottomUp :=
  ⟨by decide, walkBody_shows_nodes noteKinds_looking nestedCalls nestedCalls_whole _ ⟨rfl, rfl, rfl⟩⟩

end DefaultLowering.Program
