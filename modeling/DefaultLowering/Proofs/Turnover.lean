import DefaultLowering.Program.Walk
import Mathlib.Data.List.Basic

/-!
# Calls turned over to twins

The rule by which lowering changes a typed body, said on whole trees and without a traversal: a call
of a default method becomes a static call of its twin, which passes the receiver in front of the
arguments, and everything else is kept.

- `Turnover.expr`, `Turnover.stmt`: the rule itself;
- `Expr.targets`, `Stmt.targets`: the methods that a tree calls;
- `Expr.Placed`, `Stmt.Placed`: trees in which the rule and a relocation can be exchanged.

The main result is `Turnover.stmts_relocation`: turning over and relocating a body commute.  This is
what lets a body move to its twin at any moment of a traversal.
-/

namespace DefaultLowering.Program

variable {ss : List Stmt} {x : Expr} {o' : Turnover} {s : Stmt}

/-! ## Section 1: Induction over trees -/

/-- Expressions hold lists of expressions; the hypothesis covers every argument. -/
@[elab_as_elim, induction_eliminator]
theorem Expr.induction {motive : Expr → Prop} (absent : motive .absent)
    (call : ∀ pos receiver target args, motive receiver → (∀ x ∈ args, motive x) →
      motive (.call pos receiver target args))
    (implicitThis : ∀ pos, motive (.implicitThis pos)) (self : ∀ pos t, motive (.this pos t))
    (param : ∀ pos q, motive (.param pos q)) (var : ∀ pos v, motive (.local pos v))
    (new : ∀ pos t, motive (.new pos t))
    (literal : ∀ pos value type, motive (.literal pos value type)) (x : Expr) : motive x :=
  @Expr.rec motive (fun xs => ∀ x ∈ xs, motive x) absent call implicitThis self param var new
    literal (by simp) (fun _ _ hx hxs => List.forall_mem_cons.mpr ⟨hx, hxs⟩) x

/-- Statements hold lists of statements; the hypothesis covers every statement of a block. -/
@[elab_as_elim, induction_eliminator]
theorem Stmt.induction {motive : Stmt → Prop} (absent : motive .absent)
    (block : ∀ pos stmts, (∀ s ∈ stmts, motive s) → motive (.block pos stmts))
    (ret : ∀ pos x, motive (.ret pos x)) (expr : ∀ pos x, motive (.expr pos x))
    (decl : ∀ pos v init, motive (.local pos v init)) (s : Stmt) : motive s :=
  @Stmt.rec motive (fun ss => ∀ s ∈ ss, motive s) absent block ret expr decl (by simp)
    (fun _ _ hs hss => List.forall_mem_cons.mpr ⟨hs, hss⟩) s

theorem Relocation.exprs_eq_map (r : Relocation) (xs : List Expr) :
    r.exprs xs = xs.map r.expr := by
  induction xs with
  | nil => rfl
  | cons x xs ih => simp [Relocation.exprs, ih]

theorem Relocation.stmts_eq_map (r : Relocation) (ss : List Stmt) :
    r.stmts ss = ss.map r.stmt := by
  induction ss with
  | nil => rfl
  | cons s ss ih => simp [Relocation.stmts, ih]

/-! ## Section 2: The methods that a tree calls -/

mutual

/-- The targets of the calls in an expression. -/
def Expr.targets : Expr → List MethodRef
  | .call _ receiver target args => target :: (receiver.targets ++ targetsOf args)
  | _ => []

def targetsOf : List Expr → List MethodRef
  | [] => []
  | x :: xs => x.targets ++ targetsOf xs

end

mutual

/-- The targets of the calls in a statement. -/
def Stmt.targets : Stmt → List MethodRef
  | .absent => []
  | .block _ ss => targetsOfStmts ss
  | .ret _ x => x.targets
  | .expr _ x => x.targets
  | .local _ _ init => init.targets

def targetsOfStmts : List Stmt → List MethodRef
  | [] => []
  | s :: ss => s.targets ++ targetsOfStmts ss

end

theorem targetsOf_eq_flatMap (xs : List Expr) : targetsOf xs = xs.flatMap Expr.targets := by
  induction xs with
  | nil => rfl
  | cons x xs ih => simp [targetsOf, ih]

theorem targetsOfStmts_eq_flatMap (ss : List Stmt) :
    targetsOfStmts ss = ss.flatMap Stmt.targets := by
  induction ss with
  | nil => rfl
  | cons s ss ih => simp [targetsOfStmts, ih]

theorem nodesOf_eq_flatMap (descend : Kind → Bool) (xs : List Expr) :
    nodesOf descend xs = xs.flatMap (Expr.nodes descend) := by
  induction xs with
  | nil => rfl
  | cons x xs ih => simp [nodesOf, ih]

theorem nodesOfStmts_eq_flatMap (descend : Kind → Bool) (ss : List Stmt) :
    nodesOfStmts descend ss = ss.flatMap (Stmt.nodes descend) := by
  induction ss with
  | nil => rfl
  | cons s ss ih => simp [nodesOfStmts, ih]

theorem mem_targets_call {pos : Pos} {receiver : Expr} {target d : MethodRef} {args : List Expr} :
    d ∈ (Expr.call pos receiver target args).targets ↔
      d = target ∨ d ∈ receiver.targets ∨ ∃ x ∈ args, d ∈ x.targets := by
  simp [Expr.targets, targetsOf_eq_flatMap]

theorem mem_targetsOfStmts {d : MethodRef} :
    d ∈ targetsOfStmts ss ↔ ∃ s ∈ ss, d ∈ s.targets := by
  simp [targetsOfStmts_eq_flatMap]

/-! ## Section 3: The rule -/

/-- Which methods are default methods, and which twins stand for them. -/
structure Turnover where
  isDefault : MethodRef → Bool
  twin : MethodRef → MethodRef

/-- The argument that is passed for a receiver: `this` for an implicit one, else the receiver as it is
    turned over. -/
def passedReceiver (pos : Pos) (self : TypeRef) (receiver turned : Expr) : Expr :=
  match receiver with
  | .implicitThis _ => .this pos self
  | _ => turned

namespace Turnover

variable (o : Turnover) (self : TypeRef)

mutual

/-- An expression in a method of the type `self`, with its calls of default methods turned over. -/
def expr : Expr → Expr
  | .call pos receiver target args =>
    if o.isDefault target then
      .call pos .absent (o.twin target)
        (passedReceiver pos self receiver (expr receiver) :: exprs args)
    else .call pos (expr receiver) target (exprs args)
  | .absent => .absent
  | .implicitThis pos => .implicitThis pos
  | .this pos t => .this pos t
  | .param pos q => .param pos q
  | .local pos v => .local pos v
  | .new pos t => .new pos t
  | .literal pos value type => .literal pos value type

def exprs : List Expr → List Expr
  | [] => []
  | x :: xs => expr x :: exprs xs

end

mutual

/-- A statement with its calls turned over. -/
def stmt : Stmt → Stmt
  | .absent => .absent
  | .block pos ss => .block pos (stmts ss)
  | .ret pos x => .ret pos (o.expr self x)
  | .expr pos x => .expr pos (o.expr self x)
  | .local pos v init => .local pos v (o.expr self init)

def stmts : List Stmt → List Stmt
  | [] => []
  | s :: ss => stmt s :: stmts ss

end

theorem exprs_eq_map (xs : List Expr) : o.exprs self xs = xs.map (o.expr self) := by
  induction xs with
  | nil => rfl
  | cons x xs ih => simp [exprs, ih]

theorem stmts_eq_map (ss : List Stmt) : o.stmts self ss = ss.map (o.stmt self) := by
  induction ss with
  | nil => rfl
  | cons s ss ih => simp [stmts, ih]

/-! ## Section 4: What the rule depends on -/

variable {o self}

/-- Only the twins of the default methods that are called matter. -/
theorem expr_congr (hdefault : o'.isDefault = o.isDefault)
    (h : ∀ d ∈ x.targets, o.isDefault d = true → o'.twin d = o.twin d) :
    o'.expr self x = o.expr self x := by
  induction x with
  | call pos receiver target args ihReceiver ihArgs =>
    have hreceiver : o'.expr self receiver = o.expr self receiver :=
      ihReceiver fun d hd => h d (mem_targets_call.mpr (.inr (.inl hd)))
    have hargs : o'.exprs self args = o.exprs self args := by
      rw [exprs_eq_map, exprs_eq_map]
      apply List.map_congr_left
      intro x hx
      exact ihArgs x hx fun d hd => h d (mem_targets_call.mpr (.inr (.inr ⟨x, hx, hd⟩)))
    -- a twin is asked for only where a default method is called
    by_cases ht : o.isDefault target = true
    · have htwin := h target (mem_targets_call.mpr (.inl rfl)) ht
      simp [expr, hdefault, ht, hreceiver, hargs, htwin]
    · simp [expr, hdefault, ht, hreceiver, hargs]
  | _ => rfl

theorem stmt_congr (hdefault : o'.isDefault = o.isDefault)
    (h : ∀ d ∈ s.targets, o.isDefault d = true → o'.twin d = o.twin d) :
    o'.stmt self s = o.stmt self s := by
  induction s with
  | absent => rfl
  | block pos ss ih =>
    simp only [stmt, stmts_eq_map, Stmt.block.injEq, true_and]
    apply List.map_congr_left
    intro s hs
    exact ih s hs fun d hd => h d (mem_targetsOfStmts.mpr ⟨s, hs, hd⟩)
  | ret => simp only [stmt, expr_congr hdefault h]
  | expr => simp only [stmt, expr_congr hdefault h]
  | decl => simp only [stmt, expr_congr hdefault h]

theorem stmts_congr (hdefault : o'.isDefault = o.isDefault)
    (h : ∀ d ∈ targetsOfStmts ss, o.isDefault d = true → o'.twin d = o.twin d) :
    o'.stmts self ss = o.stmts self ss := by
  rw [stmts_eq_map, stmts_eq_map]
  apply List.map_congr_left
  intro s hs
  exact stmt_congr hdefault fun d hd => h d (mem_targetsOfStmts.mpr ⟨s, hs, hd⟩)

/-! ## Section 5: Bodies without calls of default methods -/

/-- A tree that calls no default method stays as it is. -/
theorem expr_of_clean (h : ∀ d ∈ x.targets, o.isDefault d = false) :
    o.expr self x = x := by
  induction x with
  | call pos receiver target args ihReceiver ihArgs =>
    have ht : o.isDefault target = false := h target (mem_targets_call.mpr (.inl rfl))
    have hreceiver : o.expr self receiver = receiver :=
      ihReceiver fun d hd => h d (mem_targets_call.mpr (.inr (.inl hd)))
    have hargs : o.exprs self args = args := by
      rw [exprs_eq_map, List.map_congr_left (g := id), List.map_id]
      intro x hx
      exact ihArgs x hx fun d hd => h d (mem_targets_call.mpr (.inr (.inr ⟨x, hx, hd⟩)))
    simp [expr, ht, hreceiver, hargs]
  | _ => rfl

theorem stmt_of_clean (h : ∀ d ∈ s.targets, o.isDefault d = false) :
    o.stmt self s = s := by
  induction s with
  | absent => rfl
  | block pos ss ih =>
    simp only [stmt, stmts_eq_map, Stmt.block.injEq, true_and]
    rw [List.map_congr_left (g := id), List.map_id]
    intro s hs
    exact ih s hs fun d hd => h d (mem_targetsOfStmts.mpr ⟨s, hs, hd⟩)
  | ret => simp only [stmt, expr_of_clean h]
  | expr => simp only [stmt, expr_of_clean h]
  | decl => simp only [stmt, expr_of_clean h]

theorem stmts_of_clean (h : ∀ d ∈ targetsOfStmts ss, o.isDefault d = false) :
    o.stmts self ss = ss := by
  rw [stmts_eq_map, List.map_congr_left (g := id), List.map_id]
  intro s hs
  exact stmt_of_clean fun d hd => h d (mem_targetsOfStmts.mpr ⟨s, hs, hd⟩)

/-- What is called in the place of a method. -/
def target (o : Turnover) (d : MethodRef) : MethodRef := if o.isDefault d then o.twin d else d

theorem targets_expr (x : Expr) : (o.expr self x).targets = x.targets.map o.target := by
  induction x with
  | call pos receiver target args ihReceiver ihArgs =>
    have hargs : targetsOf (o.exprs self args) = (targetsOf args).map o.target := by
      rw [exprs_eq_map, targetsOf_eq_flatMap, targetsOf_eq_flatMap, List.flatMap_map, List.map_flatMap]
      exact List.flatMap_congr ihArgs
    -- an implicit receiver becomes `this`, which calls nothing either
    have hpassed : (passedReceiver pos self receiver (o.expr self receiver)).targets =
        receiver.targets.map o.target := by
      unfold passedReceiver
      split
      · rfl
      · exact ihReceiver
    by_cases ht : o.isDefault target = true
    · simp [expr, Expr.targets, targetsOf, Turnover.target, ht, hpassed, hargs]
    · simp [expr, Expr.targets, Turnover.target, ht, ihReceiver, hargs]
  | _ => rfl

theorem targets_stmt (s : Stmt) : (o.stmt self s).targets = s.targets.map o.target := by
  induction s with
  | absent => rfl
  | block pos ss ih =>
    simp only [stmt, Stmt.targets, targetsOfStmts_eq_flatMap, stmts_eq_map, List.flatMap_map,
      List.map_flatMap]
    exact List.flatMap_congr ih
  | ret pos x => exact targets_expr x
  | expr pos x => exact targets_expr x
  | decl pos v init => exact targets_expr init

/-- The calls of the statements after the turnover, in their order. -/
theorem targets_stmts (ss : List Stmt) :
    targetsOfStmts (o.stmts self ss) = (targetsOfStmts ss).map o.target := by
  rw [stmts_eq_map, targetsOfStmts_eq_flatMap, targetsOfStmts_eq_flatMap, List.flatMap_map,
    List.map_flatMap]
  exact List.flatMap_congr fun s _ => targets_stmt s

/-- After the turnover no default method is called, if the twins are none. -/
theorem clean_stmts
    (htwin : ∀ d ∈ targetsOfStmts ss, o.isDefault d = true → o.isDefault (o.twin d) = false) :
    ∀ d ∈ targetsOfStmts (o.stmts self ss), o.isDefault d = false := by
  intro k hk
  rw [targets_stmts] at hk
  obtain ⟨d, hd, rfl⟩ := List.mem_map.mp hk
  unfold target
  by_cases hdefault : o.isDefault d = true
  · rw [if_pos hdefault]
    exact htwin d hd hdefault
  · rw [if_neg hdefault]
    simpa using hdefault

end Turnover

/-! ## Section 6: Relocated trees -/

theorem Relocation.targets_expr (r : Relocation) (x : Expr) : (r.expr x).targets = x.targets := by
  induction x with
  | call pos receiver target args ihReceiver ihArgs =>
    have hargs : (r.exprs args).flatMap Expr.targets = args.flatMap Expr.targets := by
      rw [Relocation.exprs_eq_map, List.flatMap_map]
      exact List.flatMap_congr ihArgs
    simp [Relocation.expr, Expr.targets, targetsOf_eq_flatMap, ihReceiver, hargs]
  | _ => rfl

theorem Relocation.targets_stmt (r : Relocation) (s : Stmt) : (r.stmt s).targets = s.targets := by
  induction s with
  | absent => rfl
  | block pos ss ih =>
    simp only [Relocation.stmt, Stmt.targets, targetsOfStmts_eq_flatMap, Relocation.stmts_eq_map,
      List.flatMap_map]
    exact List.flatMap_congr ih
  | ret pos x => exact r.targets_expr x
  | expr pos x => exact r.targets_expr x
  | decl pos v init => exact r.targets_expr init

theorem Relocation.targets_stmts (r : Relocation) (ss : List Stmt) :
    targetsOfStmts (r.stmts ss) = targetsOfStmts ss := by
  rw [Relocation.stmts_eq_map, targetsOfStmts_eq_flatMap, targetsOfStmts_eq_flatMap,
    List.flatMap_map]
  exact List.flatMap_congr fun s _ => r.targets_stmt s

/-! ## Section 7: The exchange of turnover and relocation

A call that names no receiver passes `this` at the position of the call when it is turned over, but a
relocation leaves a parameter at the position of the implicit receiver.  The two agree when both
positions are the same, which is how bodies are built. -/

mutual

/-- Every call of a default method has a receiver, and an implicit one stands where the call
    stands. -/
def Expr.Placed (isDefault : MethodRef → Bool) : Expr → Prop
  | .call pos receiver target args =>
    (isDefault target = true →
      receiver ≠ .absent ∧ ∀ pos', receiver = .implicitThis pos' → pos' = pos) ∧
    receiver.Placed isDefault ∧ PlacedAll isDefault args
  | _ => True

def PlacedAll (isDefault : MethodRef → Bool) : List Expr → Prop
  | [] => True
  | x :: xs => x.Placed isDefault ∧ PlacedAll isDefault xs

end

mutual

/-- The same for a statement, in which no statement is absent. -/
def Stmt.Placed (isDefault : MethodRef → Bool) : Stmt → Prop
  | .absent => False
  | .block _ ss => StmtsPlaced isDefault ss
  | .ret _ x => x.Placed isDefault
  | .expr _ x => x.Placed isDefault
  | .local _ _ init => init.Placed isDefault

def StmtsPlaced (isDefault : MethodRef → Bool) : List Stmt → Prop
  | [] => True
  | s :: ss => s.Placed isDefault ∧ StmtsPlaced isDefault ss

end

theorem placedAll_iff {isDefault : MethodRef → Bool} {xs : List Expr} :
    PlacedAll isDefault xs ↔ ∀ x ∈ xs, x.Placed isDefault := by
  induction xs with
  | nil => simp [PlacedAll]
  | cons x xs ih => simp [PlacedAll, ih]

theorem stmtsPlaced_iff {isDefault : MethodRef → Bool} :
    StmtsPlaced isDefault ss ↔ ∀ s ∈ ss, s.Placed isDefault := by
  induction ss with
  | nil => simp [StmtsPlaced]
  | cons s ss ih => simp [StmtsPlaced, ih]

section

variable {isDefault isDefault' : MethodRef → Bool}
  (h : ∀ m, isDefault m = true → isDefault' m = true)

include h

theorem Expr.Placed.mono (hx : x.Placed isDefault') : x.Placed isDefault := by
  induction x with
  | call pos receiver target args ihReceiver ihArgs =>
    simp only [Expr.Placed, placedAll_iff] at hx ⊢
    obtain ⟨hcall, hreceiver, hargs⟩ := hx
    exact ⟨fun ht => hcall (h target ht), ihReceiver hreceiver,
      fun x hx => ihArgs x hx (hargs x hx)⟩
  | _ => trivial

theorem Stmt.Placed.mono (hs : s.Placed isDefault') : s.Placed isDefault := by
  induction s with
  | absent => exact hs
  | block pos ss ih =>
    simp only [Stmt.Placed, stmtsPlaced_iff] at hs ⊢
    exact fun s hmem => ih s hmem (hs s hmem)
  | ret => exact Expr.Placed.mono h hs
  | expr => exact Expr.Placed.mono h hs
  | decl => exact Expr.Placed.mono h hs

/-- With fewer default methods less is asked of a body. -/
theorem StmtsPlaced.mono (hss : StmtsPlaced isDefault' ss) :
    StmtsPlaced isDefault ss := by
  rw [stmtsPlaced_iff] at hss ⊢
  exact fun s hs => (hss s hs).mono h

end

/-- No statement is absent, so that a move reaches the whole body. -/
theorem Relocation.reachStmt_of_placed (r : Relocation) {isDefault : MethodRef → Bool}
    (h : s.Placed isDefault) : r.reachStmt s = (r.stmt s, true) := by
  induction s with
  | absent => exact h.elim
  | block pos ss ih =>
    -- the move stops at an absent statement only, and the block has none
    have hreach : ∀ ss : List Stmt, (∀ s ∈ ss, r.reachStmt s = (r.stmt s, true)) →
        r.reachStmts ss = (r.stmts ss, true) := by
      intro ss
      induction ss with
      | nil => intro _; rfl
      | cons s ss ihList =>
        intro hss
        rw [List.forall_mem_cons] at hss
        simp only [Relocation.reachStmts, Relocation.stmts, hss.1, ihList hss.2]
    rw [Stmt.Placed, stmtsPlaced_iff] at h
    simp only [Relocation.reachStmt, Relocation.stmt, hreach ss fun s hs => ih s hs (h s hs)]
  | ret => rfl
  | expr => rfl
  | decl => rfl

theorem Relocation.reachStmts_of_placed (r : Relocation) {isDefault : MethodRef → Bool}
    (h : StmtsPlaced isDefault ss) : r.reachStmts ss = (r.stmts ss, true) := by
  have hblock := r.reachStmt_of_placed (s := .block default ss) h
  simp only [Relocation.reachStmt, Relocation.stmt, Prod.mk.injEq, Stmt.block.injEq, true_and]
    at hblock
  exact Prod.ext hblock.1 hblock.2

theorem Relocation.placed_expr (r : Relocation) {isDefault : MethodRef → Bool}
    (h : x.Placed isDefault) : (r.expr x).Placed isDefault := by
  induction x with
  | call pos receiver target args ihReceiver ihArgs =>
    simp only [Expr.Placed, placedAll_iff] at h
    obtain ⟨hcall, hreceiver, hargs⟩ := h
    simp only [Relocation.expr, Expr.Placed, placedAll_iff, Relocation.exprs_eq_map]
    refine ⟨fun ht => ?_, ihReceiver hreceiver, ?_⟩
    · -- what was implicit is a parameter now
      have hsome := (hcall ht).1
      cases receiver <;> simp_all [Relocation.expr, Relocation.leaf]
    · intro y hy
      obtain ⟨x, hx, rfl⟩ := List.mem_map.mp hy
      exact ihArgs x hx (hargs x hx)
  | _ => trivial

theorem Relocation.placed_stmt (r : Relocation) {isDefault : MethodRef → Bool}
    (h : s.Placed isDefault) : (r.stmt s).Placed isDefault := by
  induction s with
  | absent => exact h
  | block pos ss ih =>
    simp only [Relocation.stmt, Stmt.Placed, stmtsPlaced_iff, Relocation.stmts_eq_map] at h ⊢
    intro y hy
    obtain ⟨s, hs, rfl⟩ := List.mem_map.mp hy
    exact ih s hs (h s hs)
  | ret => exact r.placed_expr h
  | expr => exact r.placed_expr h
  | decl => exact r.placed_expr h

theorem Relocation.placed_stmts (r : Relocation) {isDefault : MethodRef → Bool}
    (h : StmtsPlaced isDefault ss) : StmtsPlaced isDefault (r.stmts ss) := by
  rw [stmtsPlaced_iff] at h ⊢
  intro y hy
  rw [Relocation.stmts_eq_map] at hy
  obtain ⟨s, hs, rfl⟩ := List.mem_map.mp hy
  exact r.placed_stmt (h s hs)

/-- A relocated receiver is passed as it is, and it is what the relocation makes of the argument that
    stands for the receiver. -/
theorem passedReceiver_relocation (r : Relocation) {pos : Pos} (self self' : TypeRef)
    {receiver turned : Expr} (hplaced : ∀ pos', receiver = .implicitThis pos' → pos' = pos)
    (hturned : ∀ pos', receiver = .implicitThis pos' → turned = .implicitThis pos') :
    passedReceiver pos self' (r.expr receiver) (r.expr turned) =
      r.expr (passedReceiver pos self receiver turned) := by
  cases receiver with
  | implicitThis pos' =>
    rw [hturned pos' rfl, hplaced pos' rfl]
    rfl
  | _ => rfl

namespace Turnover

variable {o : Turnover} (self self' : TypeRef)

/-- In a relocated body no receiver is implicit, so that the type `self'` does not matter. -/
theorem expr_relocation (r : Relocation) (h : x.Placed o.isDefault) :
    o.expr self' (r.expr x) = r.expr (o.expr self x) := by
  induction x with
  | call pos receiver target args ihReceiver ihArgs =>
    simp only [Expr.Placed, placedAll_iff] at h
    obtain ⟨hcall, hreceiver, hargs⟩ := h
    have hargs' : o.exprs self' (r.exprs args) = r.exprs (o.exprs self args) := by
      simp only [exprs_eq_map, Relocation.exprs_eq_map, List.map_map]
      apply List.map_congr_left
      intro x hx
      exact ihArgs x hx (hargs x hx)
    by_cases ht : o.isDefault target = true
    · have hpassed : passedReceiver pos self' (r.expr receiver) (r.expr (o.expr self receiver)) =
          r.expr (passedReceiver pos self receiver (o.expr self receiver)) :=
        passedReceiver_relocation r self self' (hcall ht).2 (by rintro pos' rfl; rfl)
      simp only [expr, Relocation.expr, Relocation.exprs, ht, if_true, hargs',
        ihReceiver hreceiver, hpassed]
    · simp only [expr, Relocation.expr, ht, Bool.false_eq_true, if_false, hargs',
        ihReceiver hreceiver]
  | _ => rfl

theorem stmt_relocation (r : Relocation) (h : s.Placed o.isDefault) :
    o.stmt self' (r.stmt s) = r.stmt (o.stmt self s) := by
  induction s with
  | absent => rfl
  | block pos ss ih =>
    simp only [Stmt.Placed, stmtsPlaced_iff] at h
    simp only [stmt, Relocation.stmt, stmts_eq_map, Relocation.stmts_eq_map, List.map_map,
      Stmt.block.injEq, true_and]
    apply List.map_congr_left
    intro s hs
    exact ih s hs (h s hs)
  | ret => simp only [stmt, Relocation.stmt, expr_relocation self self' r h]
  | expr => simp only [stmt, Relocation.stmt, expr_relocation self self' r h]
  | decl => simp only [stmt, Relocation.stmt, expr_relocation self self' r h]

/-- Turning over a relocated body gives the relocation of the body turned over. -/
theorem stmts_relocation (r : Relocation) (h : StmtsPlaced o.isDefault ss) :
    o.stmts self' (r.stmts ss) = r.stmts (o.stmts self ss) := by
  rw [stmtsPlaced_iff] at h
  simp only [stmts_eq_map, Relocation.stmts_eq_map, List.map_map]
  apply List.map_congr_left
  intro s hs
  exact stmt_relocation self self' r (h s hs)

/-! ## Section 8: Turned over trees can be relocated -/

variable {self}

theorem placed_expr (h : x.Placed o.isDefault)
    (htwin : ∀ d ∈ x.targets, o.isDefault d = true → o.isDefault (o.twin d) = false) :
    (o.expr self x).Placed o.isDefault := by
  induction x with
  | call pos receiver target args ihReceiver ihArgs =>
    simp only [Expr.Placed, placedAll_iff] at h
    obtain ⟨hcall, hreceiver, hargs⟩ := h
    have hreceiver' : (o.expr self receiver).Placed o.isDefault :=
      ihReceiver hreceiver fun d hd => htwin d (mem_targets_call.mpr (.inr (.inl hd)))
    have hargs' : ∀ y ∈ o.exprs self args, y.Placed o.isDefault := by
      intro y hy
      rw [exprs_eq_map] at hy
      obtain ⟨x, hx, rfl⟩ := List.mem_map.mp hy
      exact ihArgs x hx (hargs x hx) fun d hd =>
        htwin d (mem_targets_call.mpr (.inr (.inr ⟨x, hx, hd⟩)))
    by_cases ht : o.isDefault target = true
    · have htwin' := htwin target (mem_targets_call.mpr (.inl rfl)) ht
      have hpassed :
          (passedReceiver pos self receiver (o.expr self receiver)).Placed o.isDefault := by
        unfold passedReceiver
        split
        · trivial
        · exact hreceiver'
      simp only [expr, ht, if_true, Expr.Placed, htwin', Bool.false_eq_true, false_imp_iff,
        true_and, PlacedAll, placedAll_iff]
      exact ⟨hpassed, hargs'⟩
    · simp only [expr, ht, Bool.false_eq_true, if_false, Expr.Placed, false_imp_iff, true_and,
        placedAll_iff]
      exact ⟨hreceiver', hargs'⟩
  | _ => trivial

theorem placed_stmt (h : s.Placed o.isDefault)
    (htwin : ∀ d ∈ s.targets, o.isDefault d = true → o.isDefault (o.twin d) = false) :
    (o.stmt self s).Placed o.isDefault := by
  induction s with
  | absent => exact h
  | block pos ss ih =>
    simp only [stmt, Stmt.Placed, stmtsPlaced_iff, stmts_eq_map] at h ⊢
    intro y hy
    obtain ⟨s, hs, rfl⟩ := List.mem_map.mp hy
    exact ih s hs (h s hs) fun d hd => htwin d (mem_targetsOfStmts.mpr ⟨s, hs, hd⟩)
  | ret => exact placed_expr h htwin
  | expr => exact placed_expr h htwin
  | decl => exact placed_expr h htwin

theorem placed_stmts (h : StmtsPlaced o.isDefault ss)
    (htwin : ∀ d ∈ targetsOfStmts ss, o.isDefault d = true → o.isDefault (o.twin d) = false) :
    StmtsPlaced o.isDefault (o.stmts self ss) := by
  rw [stmtsPlaced_iff] at h ⊢
  intro y hy
  rw [stmts_eq_map] at hy
  obtain ⟨s, hs, rfl⟩ := List.mem_map.mp hy
  exact placed_stmt (h s hs) fun d hd => htwin d (mem_targetsOfStmts.mpr ⟨s, hs, hd⟩)

end Turnover

end DefaultLowering.Program
