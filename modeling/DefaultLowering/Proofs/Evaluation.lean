import DefaultLowering.Proofs.SingleTwin

/-!
# Evaluation of typed bodies

What a lowered program does when its bodies are run.  The evaluator is any that evaluates the receiver
of a call, then the arguments from left to right, and then performs the call: a `Machine` leaves open
what calls, new objects, constants and local variables are, and any of them may fail.  The only thing
asked of a machine is static dispatch, that to call a default method is to call its twin with the
receiver in front of the arguments.

- `Machine.body`: the evaluator;
- `Agrees`: an evaluation performs the calls of another one, redirected to twins;
- `agrees_turnover_stmts`: bodies that are turned over agree with what they were;
- `stmts_relocation`: a body that has moved to a twin does what it did;
- `lower_preserves`: lowering keeps what typed bodies do.
-/

namespace DefaultLowering.Program

/-! ## Section 1: Machines -/

/-- A call as it is performed.  A static call has no receiver. -/
structure Call (V : Type) where
  target : MethodRef
  receiver : Option V
  args : List V

/-- The state that an evaluation has reached, and the calls that it has performed on the way. -/
structure World (S V : Type) where
  state : S
  calls : List (Call V)

/-- An evaluation.  One that fails has no value, but it has done something. -/
abbrev Eval (S V : Type) := OptionT (StateM (World S V))

/-- The parts of an evaluator that may be anything. -/
structure Machine (S V E : Type) where
  call : Call V → S → Option V × S
  create : TypeRef → S → Option V × S
  constant : String → TypeName → S → Option V × S
  /-- The local variables in front of a body. -/
  locals : E
  read : E → Local → Option V
  /-- A local variable gets its initial value, if it has one. -/
  assign : E → Local → Option V → E
  /-- The local variables behind a block, from those in front of it and those at its end. -/
  leave : E → E → E

/-- The activation of a method. -/
structure Frame (V : Type) where
  method : MethodRef
  receiver : Option V
  args : List V

/-- The argument that a parameter of the method stands for. -/
def Frame.param {V : Type} (f : Frame V) (q : ParamRef) : Option V :=
  if q.method = f.method then f.args[q.index]? else none

/-- What comes after a statement: the next one, or the end of the body. -/
inductive Flow (V E : Type) where
  | next (locals : E)
  | returned (value : Option V)

variable {S V E α β : Type}

namespace Eval

/-- The value, if there is one. -/
def given (x : Option α) : Eval S V α := OptionT.mk (pure x)

/-- An operation on the state. -/
def inState (op : S → Option α × S) : Eval S V α :=
  OptionT.mk fun w => ((op w.state).1, { w with state := (op w.state).2 })

end Eval

namespace Machine

variable (M : Machine S V E)

/-- Performs a call, and keeps a record of it. -/
def perform (c : Call V) : Eval S V V :=
  OptionT.mk fun w => ((M.call c w.state).1, ⟨(M.call c w.state).2, w.calls ++ [c]⟩)

variable (f : Frame V)

mutual

/-- Evaluates an expression.  An absent one has no value. -/
def expr (locals : E) : Expr → Eval S V (Option V)
  | .absent => return none
  | .call _ receiver target args => do
    let r ← expr locals receiver
    let vs ← exprs locals args
    return some (← M.perform ⟨target, r, vs⟩)
  | .implicitThis _ => return some (← Eval.given f.receiver)
  | .this _ _ => return some (← Eval.given f.receiver)
  | .param _ q => return some (← Eval.given (f.param q))
  | .local _ v => return some (← Eval.given (M.read locals v))
  | .new _ t => return some (← Eval.inState (M.create t))
  | .literal _ value type => return some (← Eval.inState (M.constant value type))

/-- Evaluates arguments from left to right. -/
def exprs (locals : E) : List Expr → Eval S V (List V)
  | [] => return []
  | x :: xs => do
    let v ← expr locals x
    let v ← Eval.given v
    return v :: (← exprs locals xs)

end

mutual

/-- Runs a statement. -/
def stmt (locals : E) : Stmt → Eval S V (Flow V E)
  | .absent => return .next locals
  | .block _ ss => do
    match ← stmts locals ss with
    | .next inner => return .next (M.leave locals inner)
    | .returned value => return .returned value
  | .ret _ x => return .returned (← M.expr f locals x)
  | .expr _ x => do
    let _ ← M.expr f locals x
    return .next locals
  | .local _ v init => return .next (M.assign locals v (← M.expr f locals init))

/-- Runs statements in their order, up to one that returns. -/
def stmts (locals : E) : List Stmt → Eval S V (Flow V E)
  | [] => return .next locals
  | s :: ss => do
    match ← stmt locals s with
    | .next locals => stmts locals ss
    | .returned value => return .returned value

end

/-- Runs a body, and gives what it returns. -/
def body (ss : List Stmt) : Eval S V (Option V) := do
  match ← M.stmts f M.locals ss with
  | .next _ => return none
  | .returned value => return value

end Machine

/-- What a run has come to. -/
structure Behaviour (S V : Type) where
  /-- What was returned, none if the run has failed. -/
  result : Option (Option V)
  state : S
  /-- The calls that were performed, in their order. -/
  calls : List (Call V)

/-- Runs the body of a method that is called in the given state. -/
def Machine.run (M : Machine S V E) (f : Frame V) (ss : List Stmt) (s : S) : Behaviour S V :=
  let r := (M.body f ss).run.run ⟨s, []⟩
  ⟨r.1, r.2.state, r.2.calls⟩

/-! ## Section 2: Static dispatch -/

/-- The call of a default method that has a twin, as a call of the twin. -/
def redirect (p : Program) (c : Call V) : Call V :=
  match c.receiver, p.twinOf? c.target with
  | some r, some t => ⟨t, none, r :: c.args⟩
  | _, _ => c

/-- The outcome with its calls redirected to twins. -/
def Behaviour.redirected (p : Program) (b : Behaviour S V) : Behaviour S V :=
  { b with calls := b.calls.map p.redirect }

/-- To call a default method is to call its twin. -/
def Machine.Dispatches (M : Machine S V E) (p : Program) : Prop :=
  ∀ d t, p.twinOf? d = some t → ∀ r args s,
    M.call ⟨d, some r, args⟩ s = M.call ⟨t, none, r :: args⟩ s

section

variable {p : Program}

theorem redirect_of_some {d t : MethodRef} (h : p.twinOf? d = some t) (r : V) (args : List V) :
    p.redirect ⟨d, some r, args⟩ = ⟨t, none, r :: args⟩ := by
  simp only [redirect, h]

theorem redirect_of_none {d : MethodRef} (h : p.twinOf? d = none) (r : Option V) (args : List V) :
    p.redirect ⟨d, r, args⟩ = ⟨d, r, args⟩ := by
  cases r <;> simp only [redirect, h]

theorem Machine.Dispatches.call_redirect {M : Machine S V E} (hM : M.Dispatches p) (c : Call V) :
    M.call (p.redirect c) = M.call c := by
  obtain ⟨d, r, args⟩ := c
  cases ht : p.twinOf? d with
  | none => rw [redirect_of_none ht]
  | some t =>
    cases r with
    | none => rfl
    | some r =>
      rw [redirect_of_some ht]
      funext s
      exact (hM d t ht r args s).symm

end

/-! ## Section 3: Evaluations that agree -/

/-- The first evaluation does what the second does, where the calls are changed by `φ`. -/
def Agrees (φ : Call V → Call V) (c' c : Eval S V α) : Prop :=
  ∀ w, c'.run.run ⟨w.state, w.calls.map φ⟩ =
    ((c.run.run w).1, ⟨(c.run.run w).2.state, (c.run.run w).2.calls.map φ⟩)

/-- The values that an evaluation gives satisfy `P`. -/
def Yields (c : Eval S V α) (P : α → Prop) : Prop :=
  ∀ w a w', c.run.run w = (some a, w') → P a

theorem run_bind_some {c : Eval S V α} {g : α → Eval S V β} {w w' : World S V} {a : α}
    (h : c.run.run w = (some a, w')) : (c >>= g).run.run w = (g a).run.run w' := by
  rw [OptionT.run_bind, Option.elimM, StateT.run_bind, h]
  rfl

theorem run_bind_none {c : Eval S V α} {g : α → Eval S V β} {w w' : World S V}
    (h : c.run.run w = (none, w')) : (c >>= g).run.run w = (none, w') := by
  rw [OptionT.run_bind, Option.elimM, StateT.run_bind, h]
  rfl

namespace Agrees

variable {φ : Call V → Call V}

theorem pure (a : α) : Agrees φ (Pure.pure a : Eval S V α) (Pure.pure a) := by
  intro w
  rfl

theorem given (x : Option α) : Agrees φ (Eval.given x : Eval S V α) (Eval.given x) := by
  intro w
  rfl

theorem inState (op : S → Option α × S) :
    Agrees φ (Eval.inState op : Eval S V α) (Eval.inState op) := by
  intro w
  rfl

/-- The changed call means the same. -/
theorem perform {M : Machine S V E} {c : Call V} (h : M.call (φ c) = M.call c) :
    Agrees φ (M.perform (φ c)) (M.perform c) := by
  intro w
  show ((M.call (φ c) w.state).1, (⟨(M.call (φ c) w.state).2, w.calls.map φ ++ [φ c]⟩ : World S V)) =
    ((M.call c w.state).1, ⟨(M.call c w.state).2, (w.calls ++ [c]).map φ⟩)
  rw [h, List.map_append, List.map_singleton]

/-- Evaluations agree when their first parts do, and their second parts for every value that the first
    part can have. -/
theorem bind_of_yields {P : α → Prop} {c' c : Eval S V α} {g' g : α → Eval S V β} (hc : Agrees φ c' c)
    (hP : Yields c P) (hg : ∀ a, P a → Agrees φ (g' a) (g a)) : Agrees φ (c' >>= g') (c >>= g) := by
  intro w
  have hfirst := hc w
  rcases hrun : c.run.run w with ⟨_ | a, w'⟩
  · rw [hrun] at hfirst
    rw [run_bind_none hrun, run_bind_none hfirst]
  · rw [hrun] at hfirst
    rw [run_bind_some hrun, run_bind_some hfirst]
    exact hg a (hP w a w' hrun) w'

theorem bind {c' c : Eval S V α} {g' g : α → Eval S V β} (hc : Agrees φ c' c)
    (hg : ∀ a, Agrees φ (g' a) (g a)) : Agrees φ (c' >>= g') (c >>= g) :=
  hc.bind_of_yields (P := fun _ => True) (fun _ _ _ _ => trivial) fun a _ => hg a

theorem map {c' c : Eval S V α} (hc : Agrees φ c' c) (g : α → β) :
    Agrees φ (c' >>= fun a => Pure.pure (g a)) (c >>= fun a => Pure.pure (g a)) :=
  hc.bind fun a => .pure (g a)

end Agrees

theorem Yields.bind {P : β → Prop} {c : Eval S V α} {g : α → Eval S V β} (h : ∀ a, Yields (g a) P) :
    Yields (c >>= g) P := by
  intro w b w' hrun
  rcases hc : c.run.run w with ⟨_ | a, w''⟩
  · rw [run_bind_none hc] at hrun
    cases hrun
  · rw [run_bind_some hc] at hrun
    exact h a w'' b w' hrun

theorem Yields.pure {P : α → Prop} {a : α} (h : P a) : Yields (Pure.pure a : Eval S V α) P := by
  intro w b w' hrun
  cases hrun
  exact h

/-- Every expression has a value, unless its evaluation fails. -/
theorem Machine.expr_yields (M : Machine S V E) (f : Frame V) (locals : E) {x : Expr}
    (hx : x ≠ .absent) : Yields (M.expr f locals x) fun v => v.isSome = true := by
  cases x with
  | absent => exact absurd rfl hx
  | call =>
    exact .bind fun _ => .bind fun _ => .bind fun _ => .pure rfl
  | _ => exact .bind fun _ => .pure rfl

/-- Arguments may be changed one by one. -/
theorem Agrees.exprs {φ : Call V → Call V} {M : Machine S V E} {f : Frame V} {locals : E}
    {change : Expr → Expr} {xs : List Expr}
    (h : ∀ x ∈ xs, Agrees φ (M.expr f locals (change x)) (M.expr f locals x)) :
    Agrees φ (M.exprs f locals (xs.map change)) (M.exprs f locals xs) := by
  induction xs with
  | nil => exact .pure []
  | cons x xs ih =>
    rw [List.forall_mem_cons] at h
    exact h.1.bind fun v => (Agrees.given v).bind fun v => (ih h.2).map (v :: ·)

/-- So may statements, wherever they stand. -/
theorem Agrees.stmts {φ : Call V → Call V} {M : Machine S V E} {f : Frame V}
    {change : Stmt → Stmt} {ss : List Stmt}
    (h : ∀ s ∈ ss, ∀ locals, Agrees φ (M.stmt f locals (change s)) (M.stmt f locals s))
    (locals : E) : Agrees φ (M.stmts f locals (ss.map change)) (M.stmts f locals ss) := by
  induction ss generalizing locals with
  | nil => exact .pure _
  | cons s ss ih =>
    rw [List.forall_mem_cons] at h
    apply (h.1 locals).bind
    intro flow
    cases flow with
    | next inner => exact ih h.2 inner
    | returned => exact .pure _

/-! ## Section 4: Bodies that are turned over -/

section

variable {p : Program} {M : Machine S V E} (hM : M.Dispatches p) (f : Frame V) (self : TypeRef)

/-- What is passed for a receiver has the value of the receiver. -/
theorem expr_passedReceiver (locals : E) (pos : Pos) (receiver : Expr) :
    M.expr f locals (passedReceiver pos self receiver (p.turnover.expr self receiver)) =
      M.expr f locals (p.turnover.expr self receiver) := by
  cases receiver <;> rfl

/-- A static call whose first argument is the receiver. -/
theorem expr_call_passed (locals : E) (pos : Pos) (t : MethodRef) (x : Expr) (xs : List Expr) :
    M.expr f locals (.call pos .absent t (x :: xs)) = (do
      let v ← M.expr f locals x
      let v ← Eval.given v
      let vs ← M.exprs f locals xs
      return some (← M.perform ⟨t, none, v :: vs⟩)) := by
  simp only [Machine.expr, Machine.exprs, pure_bind, bind_assoc]

include hM

/-- The call of a default method, and the call of its twin with the receiver in front. -/
theorem agrees_call_twin (locals : E) (pos : Pos) {d t : MethodRef} (ht : p.twinOf? d = some t)
    {receiver passed : Expr} (hsome : receiver ≠ .absent) {args args' : List Expr}
    (hreceiver : Agrees p.redirect (M.expr f locals passed) (M.expr f locals receiver))
    (hargs : Agrees p.redirect (M.exprs f locals args') (M.exprs f locals args)) :
    Agrees p.redirect (M.expr f locals (.call pos .absent t (passed :: args')))
      (M.expr f locals (.call pos receiver d args)) := by
  rw [expr_call_passed]
  apply hreceiver.bind_of_yields (M.expr_yields f locals hsome)
  intro r hr
  obtain ⟨v, rfl⟩ := Option.isSome_iff_exists.mp hr
  -- the receiver is there, so that it can be passed
  show Agrees p.redirect (M.exprs f locals args' >>= _) (M.exprs f locals args >>= _)
  apply hargs.bind
  intro vs
  have hperform := Agrees.perform (hM.call_redirect ⟨d, some v, vs⟩)
  rw [redirect_of_some ht] at hperform
  exact hperform.map some

theorem agrees_turnover_expr (locals : E) {x : Expr} (hplaced : x.Placed p.isDefault)
    (hserved : p.Served x.targets) :
    Agrees p.redirect (M.expr f locals (p.turnover.expr self x)) (M.expr f locals x) := by
  induction x with
  | absent => exact .pure none
  | call pos receiver target args ihReceiver ihArgs =>
    simp only [Expr.Placed, placedAll_iff] at hplaced
    obtain ⟨hcall, hplacedReceiver, hplacedArgs⟩ := hplaced
    have hreceiver := ihReceiver hplacedReceiver
      fun d hd => hserved d (mem_targets_call.mpr (.inr (.inl hd)))
    have hargs : Agrees p.redirect (M.exprs f locals (p.turnover.exprs self args))
        (M.exprs f locals args) := by
      rw [Turnover.exprs_eq_map]
      apply Agrees.exprs
      intro x hx
      exact ihArgs x hx (hplacedArgs x hx)
        fun d hd => hserved d (mem_targets_call.mpr (.inr (.inr ⟨x, hx, hd⟩)))
    -- a call of a default method passes its receiver to the twin
    by_cases hdefault : p.isDefault target = true
    · obtain ⟨t, ht⟩ := Option.isSome_iff_exists.mp
        (hserved target (mem_targets_call.mpr (.inl rfl)) hdefault)
      have hcase : p.turnover.isDefault target = true := hdefault
      have htwin : p.turnover.twin target = t := by simp [turnover, ht]
      rw [Turnover.expr, if_pos hcase, htwin]
      apply agrees_call_twin hM f locals pos (twinOf_eq_some.mpr ⟨hdefault, ht⟩) (hcall hdefault).1
      · rw [expr_passedReceiver]
        exact hreceiver
      · exact hargs
    · have hcase : ¬p.turnover.isDefault target = true := hdefault
      have hnone : p.twinOf? target = none := if_neg hdefault
      rw [Turnover.expr, if_neg hcase]
      apply hreceiver.bind
      intro r
      apply hargs.bind
      intro vs
      have hperform := Agrees.perform (hM.call_redirect ⟨target, r, vs⟩)
      rw [redirect_of_none hnone] at hperform
      exact hperform.map some
  | implicitThis => exact (Agrees.given _).map some
  | self => exact (Agrees.given _).map some
  | param => exact (Agrees.given _).map some
  | var => exact (Agrees.given _).map some
  | new => exact (Agrees.inState _).map some
  | literal => exact (Agrees.inState _).map some

theorem agrees_turnover_stmt {s : Stmt} : ∀ locals, s.Placed p.isDefault → p.Served s.targets →
    Agrees p.redirect (M.stmt f locals (p.turnover.stmt self s)) (M.stmt f locals s) := by
  induction s with
  | absent => exact fun locals _ _ => .pure (Flow.next locals)
  | block pos ss ih =>
    intro locals hplaced hserved
    rw [Stmt.Placed, stmtsPlaced_iff] at hplaced
    rw [Turnover.stmt, Turnover.stmts_eq_map]
    have hstmts : Agrees p.redirect (M.stmts f locals (ss.map (p.turnover.stmt self)))
        (M.stmts f locals ss) := by
      apply Agrees.stmts
      intro s hs locals
      exact ih s hs locals (hplaced s hs) fun d hd => hserved d (mem_targetsOfStmts.mpr ⟨s, hs, hd⟩)
    apply hstmts.bind
    intro flow
    cases flow with
    | next => exact .pure _
    | returned => exact .pure _
  | ret =>
    intro locals hplaced hserved
    exact (agrees_turnover_expr hM f self locals hplaced hserved).map Flow.returned
  | expr =>
    intro locals hplaced hserved
    exact (agrees_turnover_expr hM f self locals hplaced hserved).map fun _ => Flow.next locals
  | decl pos v =>
    intro locals hplaced hserved
    exact (agrees_turnover_expr hM f self locals hplaced hserved).map
      fun value => Flow.next (M.assign locals v value)

/-- A body that is turned over performs the calls that it performed before, redirected to twins, and
    returns what it returned. -/
theorem agrees_turnover_body {ss : List Stmt} (hplaced : StmtsPlaced p.isDefault ss)
    (hserved : p.Served (targetsOfStmts ss)) :
    Agrees p.redirect (M.body f (p.turnover.stmts self ss)) (M.body f ss) := by
  rw [Turnover.stmts_eq_map]
  rw [stmtsPlaced_iff] at hplaced
  have hstmts : Agrees p.redirect (M.stmts f M.locals (ss.map (p.turnover.stmt self)))
      (M.stmts f M.locals ss) := by
    apply Agrees.stmts
    intro s hs locals
    exact agrees_turnover_stmt hM f self locals (hplaced s hs)
      fun d hd => hserved d (mem_targetsOfStmts.mpr ⟨s, hs, hd⟩)
  apply hstmts.bind
  intro flow
  cases flow with
  | next => exact .pure _
  | returned => exact .pure _

end

/-! ## Section 5: Bodies that have moved -/

section

variable {p : Program} {M : Machine S V E} {f f' : Frame V} {d : MethodRef}

theorem exprs_map {change : Expr → Expr} {locals : E} {xs : List Expr}
    (h : ∀ x ∈ xs, M.expr f' locals (change x) = M.expr f locals x) :
    M.exprs f' locals (xs.map change) = M.exprs f locals xs := by
  induction xs with
  | nil => rfl
  | cons x xs ih =>
    rw [List.forall_mem_cons] at h
    rw [List.map_cons, Machine.exprs, Machine.exprs, h.1, ih h.2]

theorem stmts_map {change : Stmt → Stmt} {ss : List Stmt}
    (h : ∀ s ∈ ss, ∀ locals declared, s.Fits p d declared →
      M.stmt f' locals (change s) = M.stmt f locals s)
    (locals : E) (declared : List Local) (hfits : StmtsFit p d declared ss) :
    M.stmts f' locals (ss.map change) = M.stmts f locals ss := by
  induction ss generalizing locals declared with
  | nil => rfl
  | cons s ss ih =>
    rw [List.forall_mem_cons] at h
    rw [List.map_cons, Machine.stmts, Machine.stmts, h.1 locals declared hfits.1]
    -- the statements behind run with whatever locals the first one has left
    refine bind_congr fun flow => ?_
    cases flow with
    | next inner => exact ih h.2 inner _ hfits.2
    | returned => rfl

end

section

variable {p : Program} (M : Machine S V E) (d t : MethodRef) (r : V) (args : List V)

/-- The receiver is the first argument now, and the others are one place further on. -/
theorem expr_relocation (locals : E) {declared : List Local} {x : Expr} (h : x.Fits p d declared) :
    M.expr ⟨t, none, r :: args⟩ locals (Relocation.expr ⟨d, t⟩ x) =
      M.expr ⟨d, some r, args⟩ locals x := by
  have hreceiver : (⟨t, none, r :: args⟩ : Frame V).param ⟨t, 0⟩ = some r := by
    rw [Frame.param, if_pos rfl]
    rfl
  induction x with
  | call pos receiver target xs ihReceiver ihArgs =>
    simp only [Expr.Fits, allFit_iff] at h
    obtain ⟨-, hfits, hargs⟩ := h
    have hexprs : M.exprs ⟨t, none, r :: args⟩ locals (Relocation.exprs ⟨d, t⟩ xs) =
        M.exprs ⟨d, some r, args⟩ locals xs := by
      rw [Relocation.exprs_eq_map]
      apply exprs_map
      intro x hx
      exact ihArgs x hx (hargs x hx)
    rw [Relocation.expr, Machine.expr, Machine.expr, ihReceiver hfits, hexprs]
  | implicitThis =>
    show (Eval.given ((⟨t, none, r :: args⟩ : Frame V).param ⟨t, 0⟩) >>= _) = _
    rw [hreceiver]
    rfl
  | self =>
    show (Eval.given ((⟨t, none, r :: args⟩ : Frame V).param ⟨t, 0⟩) >>= _) = _
    rw [hreceiver]
    rfl
  | param =>
    obtain ⟨hmethod, -⟩ := h
    simp only [Relocation.expr, Relocation.leaf, Machine.expr, Frame.param, hmethod, if_true,
      List.getElem?_cons_succ]
  | _ => rfl

theorem stmt_relocation {s : Stmt} : ∀ (locals : E) (declared : List Local), s.Fits p d declared →
    M.stmt ⟨t, none, r :: args⟩ locals (Relocation.stmt ⟨d, t⟩ s) =
      M.stmt ⟨d, some r, args⟩ locals s := by
  induction s with
  | absent => exact fun _ _ _ => rfl
  | block pos ss ih =>
    intro locals declared h
    rw [Relocation.stmt, Machine.stmt, Machine.stmt, Relocation.stmts_eq_map,
      stmts_map ih locals declared h]
  | ret =>
    intro locals declared h
    rw [Relocation.stmt, Machine.stmt, Machine.stmt, expr_relocation M d t r args locals h]
  | expr =>
    intro locals declared h
    rw [Relocation.stmt, Machine.stmt, Machine.stmt, expr_relocation M d t r args locals h]
  | decl =>
    intro locals declared h
    rw [Relocation.stmt, Machine.stmt, Machine.stmt, expr_relocation M d t r args locals h.2]

/-- A body that has moved to a twin does there what it did. -/
theorem body_relocation {ss : List Stmt} (h : StmtsFit p d [] ss) :
    M.body ⟨t, none, r :: args⟩ (Relocation.stmts ⟨d, t⟩ ss) = M.body ⟨d, some r, args⟩ ss := by
  unfold Machine.body
  rw [Relocation.stmts_eq_map,
    stmts_map (fun s _ => stmt_relocation M d t r args) M.locals [] h]

end

/-! ## Section 6: Bodies that pass everything on -/

section

variable (M : Machine S V E) (f : Frame V) (locals : E) (pos : Pos)

/-- Parameters are evaluated to their arguments. -/
theorem exprs_params {is : List Nat} {vs : List V} (h : is.map (f.args[·]?) = vs.map some) :
    M.exprs f locals (is.map fun i => .param pos ⟨f.method, i⟩) = pure vs := by
  induction is generalizing vs with
  | nil =>
    cases vs with
    | nil => rfl
    | cons => cases h
  | cons i is ih =>
    cases vs with
    | nil => cases h
    | cons v =>
      simp only [List.map_cons, List.cons.injEq] at h
      have hparam : f.param ⟨f.method, i⟩ = some v := by
        rw [Frame.param, if_pos rfl]
        exact h.1
      rw [List.map_cons, Machine.exprs, ih h.2, Machine.expr, hparam]
      rfl

theorem map_getElem?_range (vs : List V) : (List.range vs.length).map (vs[·]?) = vs.map some := by
  apply List.ext_getElem
  · simp
  · intro i hi hi'
    simp

/-- A method passes its receiver and its arguments on in a static call. -/
theorem expr_call_own {k t : MethodRef} {r : V} {args : List V} {self : TypeRef} {n : Nat}
    (hn : args.length = n) :
    M.expr ⟨k, some r, args⟩ locals (.call pos .absent t
      (.this pos self :: (List.range n).map fun i => .param pos ⟨k, i⟩)) = (do
        return some (← M.perform ⟨t, none, r :: args⟩)) := by
  have hargs := exprs_params M ⟨k, some r, args⟩ locals pos (map_getElem?_range args)
  rw [hn] at hargs
  rw [expr_call_passed, hargs]
  rfl

/-- The run of a body that does no more than perform one call. -/
theorem run_of_body {ss : List Stmt} {c : Call V} {g : V → Option V}
    (h : M.body f ss = do return g (← M.perform c)) (s : S) :
    M.run f ss s = ⟨(M.call c s).1.map g, (M.call c s).2, [c]⟩ := by
  have hperform : (M.perform c).run.run ⟨s, []⟩ = ((M.call c s).1, ⟨(M.call c s).2, [c]⟩) := rfl
  have hrun : (M.body f ss).run.run ⟨s, []⟩ = ((M.call c s).1.map g, ⟨(M.call c s).2, [c]⟩) := by
    rw [h]
    cases hcall : (M.call c s).1 with
    | none =>
      rw [hcall] at hperform
      exact run_bind_none hperform
    | some =>
      rw [hcall] at hperform
      exact run_bind_some hperform
  unfold Machine.run
  rw [hrun]

end

/-- When the method `k` runs, it calls the static method `t` exactly once, with the receiver in front
    of the arguments, and returns what comes back unless its result is void. -/
def PassesOn (q : Program) (M : Machine S V E) (k t : MethodRef) : Prop :=
  ∃ pos block, (q.method k).body = some (.code pos (some block)) ∧
    ∀ r args s, args.length = (q.method k).params.length →
      M.run ⟨k, some r, args⟩ block.stmts s =
        { result := (M.call ⟨t, none, r :: args⟩ s).1.map fun v =>
            if (q.method k).result.isVoid then none else some v
          state := (M.call ⟨t, none, r :: args⟩ s).2
          calls := [⟨t, none, r :: args⟩] }

/-- A body that delegates passes everything on. -/
theorem passesOn_delegation {q : Program} (M : Machine S V E) {k t : MethodRef} {self : TypeRef}
    {x : Method} (hbody : (q.method k).body = some (delegation k x self t))
    (hparams : (q.method k).params.length = x.params.length)
    (hresult : (q.method k).result = x.result) : PassesOn q M k t := by
  refine ⟨_, _, hbody, ?_⟩
  intro r args s hlength
  rw [hparams] at hlength
  apply run_of_body
  have hcall : M.expr ⟨k, some r, args⟩ M.locals (.call x.pos .absent t (.this x.pos self ::
      (List.range x.params.length).map fun i => .param x.pos ⟨k, i⟩)) = _ :=
    expr_call_own M M.locals x.pos hlength
  rw [hresult]
  cases hvoid : x.result.isVoid with
  | true => simp [Machine.body, Machine.stmts, Machine.stmt, hcall]
  | false => simp [Machine.body, Machine.stmts, Machine.stmt, hcall]

/-! ## Section 7: The specification -/

/-- The typed bodies of `p` do in `q` what they did, but that the calls of default methods that have
    twins are calls of the twins. -/
structure Preserves (p q : Program) (M : Machine S V E) : Prop where
  /-- A method without a twin has a body that does what the original one did. -/
  kept : ∀ m pos block, (p.method m).body = some (.code pos (some block)) → q.twinOf? m = none →
    ∃ block', (q.method m).body = some (.code pos (some block')) ∧ ∀ receiver args s,
      M.run ⟨m, receiver, args⟩ block'.stmts s =
        (M.run ⟨m, receiver, args⟩ block.stmts s).redirected q
  /-- A twin does with the receiver in front of the arguments what its default method did. -/
  moved : ∀ m pos block, (p.method m).body = some (.code pos (some block)) →
    ∀ t, q.twinOf? m = some t →
    ∃ block', (q.method t).body = some (.code pos (some block')) ∧ ∀ r args s,
      M.run ⟨t, none, r :: args⟩ block'.stmts s =
        (M.run ⟨m, some r, args⟩ block.stmts s).redirected q
  /-- A default method with a twin calls it. -/
  delegates : ∀ d t, q.twinOf? d = some t → q.PassesOn M d t
  /-- Every other new method is a forwarder of a default method, and calls the twin. -/
  forwards : ∀ k, p.methods.length ≤ k.index → k.index < q.methods.length →
    (∀ d, q.twinOf? d ≠ some k) →
    ∃ d t, (q.method k).overrides = [d] ∧ q.twinOf? d = some t ∧ q.PassesOn M k t

theorem run_of_agrees {p : Program} {M : Machine S V E} {f f' : Frame V} {ss ss' : List Stmt}
    (h : Agrees p.redirect (M.body f' ss') (M.body f ss)) (s : S) :
    M.run f' ss' s = (M.run f ss s).redirected p := by
  have hrun := h ⟨s, []⟩
  unfold Machine.run Behaviour.redirected
  rw [List.map_nil] at hrun
  rw [hrun]

/-- Lowering a loaded program keeps what its typed bodies do, whatever machine they run on, if to call
    a default method is to call its twin. -/
theorem lower_preserves {p q : Program} (hp : p.Loaded) {cache cache' : NameCache}
    {summary : Summary} (hrun : p.lower cache = ⟨q, cache', .ok summary⟩) (M : Machine S V E)
    (hM : M.Dispatches q) : Preserves p q M := by
  have hfresh := hp.fresh
  have hphases := lower_phases hfresh.toCoherent hrun
  have hext := hphases.steps.extends hfresh.toCoherent
  have hplaced : ∀ m pos block, (p.method m).body = some (.code pos (some block)) →
      StmtsPlaced q.isDefault block.stmts := by
    rw [hext.isDefault]
    exact hfresh.placed
  have hstands : ∀ m pos block, (p.method m).body = some (.code pos (some block)) →
      q.Served (targetsOfStmts block.stmts) ∧
        q.Stands m pos block.pos (q.turnover.stmts (q.home m) block.stmts) := by
    intro m pos block hbody
    exact (hphases.steps.carried hfresh.toCoherent hfresh.statics hbody).of_clean
      hphases.lowered.clean
  refine ⟨?_, ?_, ?_, ?_⟩
  · intro m pos block hbody htwin
    obtain ⟨hserved, hstands⟩ := hstands m pos block hbody
    refine ⟨_, (stands_of_none htwin).mp hstands, ?_⟩
    intro receiver args s
    exact run_of_agrees (agrees_turnover_body hM _ _ (hplaced m pos block hbody) hserved) s
  · intro m pos block hbody t htwin
    obtain ⟨hserved, hstands⟩ := hstands m pos block hbody
    refine ⟨_, (stands_of_some htwin).mp hstands, ?_⟩
    intro r args s
    apply run_of_agrees
    -- what has been turned over fits the method still, and so it can be moved
    have hlt := lt_of_body hbody
    obtain ⟨b, hb, hfits⟩ := (hfresh.fits m).code pos (some block) hbody
    cases hb
    have hfits' : StmtsFit q m [] (q.turnover.stmts (q.home m) block.stmts) :=
      (hfits.kept hext.keepsHeads hlt).turnover hphases.lowered.coherent
        (Nat.lt_of_lt_of_le hlt hext.length_methods) hserved
    rw [body_relocation M m t r args hfits']
    exact agrees_turnover_body hM _ _ (hplaced m pos block hbody) hserved
  · intro d t htwin
    obtain ⟨hd, hstatic⟩ := twinOf_eq_some.mp htwin
    exact passesOn_delegation M (hphases.lowered.coherent.twin d t hd hstatic).delegates rfl rfl
  · intro k hnew hlt hno
    rcases hphases.created hfresh hnew hlt with ⟨d, hd⟩ | ⟨d, c, -, hforwarder⟩
    · exact absurd hd (hno d)
    · obtain ⟨t, ht, hbody⟩ := hforwarder.body
      exact ⟨d, t, hforwarder.overrides, ht, passesOn_delegation M hbody rfl rfl⟩

/-- A machine that counts.  A call gives the number of calls before it, and the state is the list of
    calls, where default methods are known by their twins. -/
def counting (p : Program) : Machine (List (Call Nat)) Nat (List (Local × Option Nat)) where
  call c s := (some s.length, s ++ [p.redirect c])
  create t s := (some t.index, s)
  constant text _ s := (text.toNat?, s)
  locals := []
  read env v := (env.lookup v).join
  assign env v value := (v, value) :: env
  leave outer _ := outer

theorem counting_dispatches (p : Program) : (counting p).Dispatches p := by
  intro d t ht r args s
  show (some s.length, s ++ [p.redirect ⟨d, some r, args⟩]) = _
  rw [redirect_of_some ht]
  rfl

theorem lower_preserves_greeting : ∃ q cache summary, greetingProgram.Loaded ∧
    greetingProgram.lower {} = ⟨q, cache, .ok summary⟩ ∧ (counting q).Dispatches q ∧
      Preserves greetingProgram q (counting q) := by
  obtain ⟨q, cache, summary, hrun, -, -⟩ := greeting_lowers
  exact ⟨q, cache, summary, greeting_loaded, hrun, counting_dispatches q,
    lower_preserves greeting_loaded hrun (counting q) (counting_dispatches q)⟩

end DefaultLowering.Program
