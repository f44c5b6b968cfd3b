import DefaultLowering.Proofs.Workload

/-!
# Walking a body

A walk over the body of a method retargets what it meets, and twins are made on the way, also of the
method itself.  Here it is shown to do nothing but steps of lowering:

- `Walking`: the invariant.  The stored body of the method is still the one that the walk began with,
  in the twin and relocated if the method has got a twin since;
- `walkStmts_turned`: the tree that the walk holds is the part visited so far, turned over, and
  relocated in the same case;
- `retargetLinkage_turned`: the same for the linkage of a fragment;
- `walkMethod_steps`: walking a method is a sequence of steps, after which the method uses no default
  method;
- `walkMethod_unloads`: what is counted on the way is what there was to retarget;
- `walkMethod_stopped`: unless there is a fragment that cannot be renamed.
-/

namespace DefaultLowering.Program

variable {x : Expr} {p q : Program} {base cache : NameCache} {twins : MethodRef → Prop}
  {d k : MethodRef} {pos : Pos} {refs : List Linkage} {r : Linkage} {ident : String}
  {func : Option Fragment.Function} {w : Walked Retargeting}

/-! ## Section 1: How a walk ends -/

/-- Begun in the state `s`, the walk ends with a result and a state as described. -/
def Walk.Ends {σ α : Type} (w : Walk σ α) (s : WalkState σ) (Q : α → WalkState σ → Prop) : Prop :=
  Q (w.run s).1 (w.run s).2

namespace Walk.Ends

variable {σ α β : Type} {s : WalkState σ} {P : α → WalkState σ → Prop}
  {Q : β → WalkState σ → Prop}

theorem pure {a : α} (h : P a s) : Ends (pure a) s P := h

theorem bind {w : Walk σ α} {f : α → Walk σ β} (hw : Ends w s P)
    (hf : ∀ a s', P a s' → Ends (f a) s' Q) : Ends (w >>= f) s Q :=
  hf _ _ hw

theorem mono {w : Walk σ α} {P' : α → WalkState σ → Prop} (hw : Ends w s P)
    (h : ∀ a s', P a s' → P' a s') : Ends w s P' :=
  h _ _ hw

theorem bind_get {f : WalkState σ → Walk σ β} (h : Ends (f s) s Q) :
    Ends (MonadState.get >>= f) s Q := h

theorem bind_set {s' : WalkState σ} {f : PUnit → Walk σ β} (h : Ends (f ⟨⟩) s' Q) :
    Ends (MonadStateOf.set s' >>= f) s Q := h

theorem bind_halted {f : Bool → Walk σ β} (hfault : s.fault = none) (h : Ends (f false) s Q) :
    Ends (Walk.halted >>= f) s Q := by
  change Ends (f s.fault.isSome) s Q
  rw [hfault]
  exact h

theorem halt (f : Fault) (hfault : s.fault = none) :
    Ends (Walk.halt f) s fun _ s' => s'.fault = some f := by
  change (s.fault <|> some f) = some f
  rw [hfault]
  rfl

theorem leaveExpr {leave : Node → Walk σ Node} {Q : Expr → WalkState σ → Prop}
    (hfault : s.fault = none) (h : Ends (leave (.expr x)) s fun n s' => ∃ y, n = .expr y ∧ Q y s') :
    Ends (leaveExpr leave x) s Q := by
  refine .bind_halted hfault (.bind h ?_)
  rintro _ s' ⟨y, rfl, hy⟩
  exact .pure hy

theorem leaveStmt {leave : Node → Walk σ Node} {x : Stmt} {Q : Stmt → WalkState σ → Prop}
    (hfault : s.fault = none) (h : Ends (leave (.stmt x)) s fun n s' => ∃ y, n = .stmt y ∧ Q y s') :
    Ends (leaveStmt leave x) s Q := by
  refine .bind_halted hfault (.bind h ?_)
  rintro _ s' ⟨y, rfl, hy⟩
  exact .pure hy

theorem leaveBody {leave : Node → Walk σ Node} {x : Body} {Q : Body → WalkState σ → Prop}
    (hfault : s.fault = none) (h : Ends (leave (.body x)) s fun n s' => ∃ y, n = .body y ∧ Q y s') :
    Ends (leaveBody leave x) s Q := by
  refine .bind_halted hfault (.bind h ?_)
  rintro _ s' ⟨y, rfl, hy⟩
  exact .pure hy

end Walk.Ends

/-- A part of the tree after the relocation that has befallen it, if any. -/
def moved {α : Type} (relocate : Relocation → α → α) (r : Option Relocation) (x : α) : α :=
  r.elim x fun r => relocate r x

/-- What is held while the walk goes on is relocated with the rest. -/
theorem Walk.Ends.holding {σ α β : Type} {s : WalkState σ} {relocate : Relocation → α → α} {x : α}
    {rest : Walk σ β} {P : β → WalkState σ → Prop} {Q : α × β → WalkState σ → Prop}
    (hrest : Ends rest s fun y s' => (∀ r, s.moved = some r → s'.moved = some r) ∧ P y s')
    (h : ∀ y s', P y s' → Q (moved relocate s'.moved x, y) s') :
    Ends (Walk.holding relocate (moved relocate s.moved x) rest) s Q := by
  refine .bind_get (.bind hrest ?_)
  rintro y s' ⟨hmono, hy⟩
  refine .bind_get ?_
  have hq := h y s' hy
  cases hbefore : s.moved with
  | some r =>
    rw [hmono r hbefore] at hq ⊢
    exact hq
  | none =>
    cases hafter : s'.moved with
    | none => rw [hafter] at hq; exact hq
    | some => rw [hafter] at hq; exact hq

/-! ## Section 2: The invariant of a walk -/

/-- Every remembered identifier was remembered from the beginning, or is the identifier of a method
    with the key under which it is remembered. -/
def Remembers (base : NameCache) (p : Program) (cache : NameCache) : Prop :=
  ∀ key ident, cache.idents.lookup key = some ident → base.idents.lookup key = some ident ∨
    ∃ k, k.index < p.methods.length ∧ p.key k = key ∧ ident = "@" ++ p.memberText k

theorem Remembers.extends (h : Remembers base p cache) (hext : p.Extends q) :
    Remembers base q cache := by
  intro key ident hlookup
  rcases h key ident hlookup with hbase | ⟨k, hk, hkey, hident⟩
  · exact .inl hbase
  · refine .inr ⟨k, Nat.lt_of_lt_of_le hk hext.length_methods, ?_, ?_⟩
    · rw [hext.key hk]
      exact hkey
    · rw [hext.memberText hk]
      exact hident

/-- While a body is walked, the methods that it uses get twins. -/
def Permit.making (b : Body) : Permit := ⟨(· ∈ b.targets), False, False, fun _ _ _ => False⟩

/-- When a body has been walked, its linkage names twins as the cache does. -/
def Permit.retargeting (twins : MethodRef → Prop) (base cache : NameCache) : Permit :=
  ⟨twins, False, True, fun p m ident =>
    Names base p m ident ∧ cache.idents.lookup (p.key m) = some ident⟩

theorem Permit.making_within {b : Body} (h : ∀ d ∈ b.targets, twins d) :
    (Permit.making b).Within (.retargeting twins base cache) :=
  ⟨h, id, fun _ => trivial, fun _ _ _ hfalse => hfalse.elim⟩

theorem Permit.retargeting_within {twins' : MethodRef → Prop} {cache' : NameCache}
    (h : ∀ d, twins d → twins' d) (hcache : ∀ key ident, cache.idents.lookup key = some ident →
      cache'.idents.lookup key = some ident) :
    (Permit.retargeting twins base cache).Within (.retargeting twins' base cache') :=
  ⟨h, id, id, fun _ _ _ hname => ⟨hname.1, hcache _ _ hname.2⟩⟩

theorem Permit.retargeting_within_any :
    (Permit.retargeting twins base cache).Within (.any base) :=
  Permit.within_any fun _ _ _ hname => hname.1

/-- A walk over the body `b` of the method `m` of the type `t` is under way. -/
structure Walking (base : NameCache) (m : MethodRef) (t : TypeRef) (b : Body)
    (s : WalkState Retargeting) : Prop where
  coherent : s.program.Coherent
  remembers : Remembers base s.program s.user.cache
  fault : s.fault = none
  ahead : s.ahead = s.moved
  home : s.program.home m = t
  /-- The body is still the one with which the walk began. -/
  body : (s.program.method s.owner).body = some (moved Relocation.body s.moved b)
  here : s.moved = none → s.owner = m
  /-- If the body was relocated, it is the twin that has it. -/
  there : ∀ r, s.moved = some r → s.owner = r.twin ∧ s.program.isDefault m = true ∧
    s.program.staticOf? m = some r.twin

/-- What lies between two states of a walk.  What has moved stays where it is, and what is remembered
    is not forgotten. -/
structure Passed (b : Body) (s s' : WalkState Retargeting) : Prop where
  steps : Steps (.making b) s.program s'.program
  moved : ∀ r, s.moved = some r → s'.moved = some r
  cache : ∀ key ident, s.user.cache.idents.lookup key = some ident →
    s'.user.cache.idents.lookup key = some ident

namespace Passed

variable {b : Body} {s s' s'' : WalkState Retargeting}

theorem refl (s : WalkState Retargeting) : Passed b s s := ⟨.refl, fun _ h => h, fun _ _ h => h⟩

theorem trans (h : Passed b s s') (h' : Passed b s' s'') : Passed b s s'' :=
  ⟨h.steps.trans h'.steps, fun r hr => h'.moved r (h.moved r hr),
    fun key ident hk => h'.cache key ident (h.cache key ident hk)⟩

end Passed

section

variable {base : NameCache} {m : MethodRef} {t : TypeRef} {b : Body}
  {s s' : WalkState Retargeting}

theorem Walking.extends (h : Walking base m t b s) (hpassed : Passed b s s') :
    s.program.Extends s'.program :=
  hpassed.steps.extends h.coherent

theorem Walking.lt (h : Walking base m t b s) : m.index < s.program.methods.length := by
  cases hmoved : s.moved with
  | none =>
    have hbody := h.body
    rw [h.here hmoved] at hbody
    exact lt_of_body hbody
  | some r => exact lt_of_isDefault (h.there r hmoved).2.1

/-- The visitor's own bookkeeping does not matter, apart from the identifiers. -/
theorem Walking.user (h : Walking base m t b s) {u : Retargeting}
    (hcache : u.cache = s.user.cache) : Walking base m t b { s with user := u } :=
  ⟨h.coherent, by rw [hcache]; exact h.remembers, h.fault, h.ahead, h.home, h.body, h.here,
    h.there⟩

/-! ## Section 3: Twins on the way -/

/-- A twin of another method leaves the walked body where it is. -/
theorem Walking.withTwin_other (h : Walking base m t b s) (hd : s.program.isDefault d = true)
    (hnone : s.program.staticOf? d = none) (hne : d ≠ s.owner) :
    Walking base m t b { s with program := s.program.withTwin d } := by
  have hext : s.program.Extends (s.program.withTwin d) := .withTwin h.coherent.toWired hd
  refine ⟨h.coherent.withTwin hd hnone, h.remembers.extends hext, h.fault, h.ahead, ?_, ?_,
    h.here, ?_⟩
  · exact (hext.home h.lt).trans h.home
  · change ((s.program.withTwin d).method s.owner).body = _
    rw [method_withTwin_other hne.symm (ne_next_of_lt (lt_of_body h.body))]
    exact h.body
  · intro r hr
    obtain ⟨howner, hm, htwin⟩ := h.there r hr
    refine ⟨howner, ?_, hext.staticOf m r.twin hm htwin⟩
    change (s.program.withTwin d).isDefault m = true
    rw [hext.isDefault]
    exact hm

/-- When the method itself gets a twin, the body moves there.  It has not moved before, since twins
    are no default methods. -/
theorem Walking.withTwin_owner (h : Walking base m t b s)
    (hd : s.program.isDefault s.owner = true) (hnone : s.program.staticOf? s.owner = none) :
    s.moved = none ∧ Walking base m t b
      { s with
        program := s.program.withTwin s.owner
        owner := s.program.next
        moved := some ⟨s.owner, s.program.next⟩
        ahead := some ⟨s.owner, s.program.next⟩ } := by
  have hmoved : s.moved = none := by
    cases hmoved : s.moved with
    | none => rfl
    | some r =>
      obtain ⟨howner, hm, htwin⟩ := h.there r hmoved
      rw [howner, h.coherent.twin_not_default hm htwin] at hd
      cases hd
  refine ⟨hmoved, ?_⟩
  have howner := h.here hmoved
  have hbody := h.body
  rw [hmoved] at hbody
  have hext : s.program.Extends (s.program.withTwin s.owner) := .withTwin h.coherent.toWired hd
  refine ⟨h.coherent.withTwin hd hnone, h.remembers.extends hext, h.fault, rfl, ?_, ?_, ?_, ?_⟩
  · exact (hext.home h.lt).trans h.home
  · change ((s.program.withTwin s.owner).method s.program.next).body = _
    rw [method_withTwin_next h.coherent.toWired (lt_of_isDefault hd)]
    change ((s.program.method s.owner).body).map _ = _
    rw [hbody]
    rfl
  · intro hnever
    cases hnever
  · intro r hr
    cases hr
    refine ⟨rfl, ?_, ?_⟩
    · change (s.program.withTwin s.owner).isDefault m = true
      rw [hext.isDefault, ← howner]
      exact hd
    · change (s.program.withTwin s.owner).staticOf? m = some s.program.next
      rw [← howner, staticOf_withTwin h.coherent hd hnone hd, if_pos rfl]

/-- The request for a twin during a walk. -/
theorem twinFor_ends (h : Walking base m t b s) (hd : s.program.isDefault d = true)
    (hb : d ∈ b.targets) :
    (twinFor d).Ends s fun found s' => Walking base m t b s' ∧ Passed b s s' ∧
      s'.user.counts = s.user.counts ∧
      ∃ twin, found = some twin ∧ s'.program.staticOf? d = some twin := by
  refine .bind_get ?_
  rw [requestTwin_eq h.coherent hd]
  cases hstatic : s.program.staticOf? d with
  | some twin => exact .pure ⟨h, .refl s, rfl, twin, rfl, hstatic⟩
  | none =>
    have hnew : (s.program.withTwin d).staticOf? d = some s.program.next := by
      rw [staticOf_withTwin h.coherent hd hstatic hd, if_pos rfl]
    have hstep : Steps (.making b) s.program (s.program.withTwin d) :=
      .single (.twin d hd hstatic hb)
    refine .bind_set ?_
    by_cases hself : d = s.owner
    · -- the body that is being walked moves to the twin
      subst hself
      obtain ⟨hmoved, hwalking⟩ := h.withTwin_owner hd hstatic
      rw [if_pos rfl]
      refine ⟨hwalking.user rfl, ⟨hstep, ?_, fun _ _ hk => hk⟩, rfl, s.program.next, rfl, hnew⟩
      intro r hr
      rw [hmoved] at hr
      cases hr
    · rw [if_neg hself]
      exact ⟨(h.withTwin_other hd hstatic hself).user rfl,
        ⟨hstep, fun _ hr => hr, fun _ _ hk => hk⟩, rfl, s.program.next, rfl, hnew⟩

/-! ## Section 4: Typed bodies -/

/-- A part with the given call targets has been walked.  The calls of default methods among them were
    counted. -/
structure Visited (base : NameCache) (m : MethodRef) (t : TypeRef) (b : Body)
    (s : WalkState Retargeting) (targets : List MethodRef) (s' : WalkState Retargeting) : Prop where
  walking : Walking base m t b s'
  passed : Passed b s s'
  served : s'.program.Served targets
  counts : s'.user.counts = s.user.counts + .ofCalls (targets.countP s.program.isDefault)

namespace Visited

variable {s'' : WalkState Retargeting} {targets targets' : List MethodRef}

theorem here (h : Walking base m t b s) : Visited base m t b s [] s :=
  ⟨h, .refl s, .nil, (add_zero _).symm⟩

theorem other (h : Walking base m t b s) (hd : s.program.isDefault d = false) :
    Visited base m t b s [d] s := by
  refine ⟨h, .refl s, ?_, ?_⟩
  · intro k hk hdefault
    rw [List.mem_singleton.mp hk, hd] at hdefault
    cases hdefault
  · rw [List.countP_singleton, hd]
    exact (add_zero _).symm

theorem trans (h : Visited base m t b s targets s') (hs : Walking base m t b s)
    (h' : Visited base m t b s' targets' s'') : Visited base m t b s (targets ++ targets') s'' := by
  refine ⟨h'.walking, h.passed.trans h'.passed, ?_, ?_⟩
  · exact ((h.walking.extends h'.passed).served h.served).append h'.served
  · rw [h'.counts, h.counts, (hs.extends h.passed).isDefault, List.countP_append,
      RetargetCounts.ofCalls_add, add_assoc]

/-- The order of the calls does not matter. -/
theorem perm (h : Visited base m t b s targets s') (hperm : targets.Perm targets') :
    Visited base m t b s targets' s' := by
  refine ⟨h.walking, h.passed, fun d hd => h.served d (hperm.mem_iff.mpr hd), ?_⟩
  rw [h.counts, hperm.countP_eq]

end Visited

/-- What was turned over before stays so while more twins are made. -/
theorem Walking.turnover_expr (h : Walking base m t b s) (hpassed : Passed b s s')
    (hserved : s.program.Served x.targets) :
    s'.program.turnover.expr t x = s.program.turnover.expr t x :=
  Turnover.expr_congr (h.extends hpassed).isDefault ((h.extends hpassed).turnover_twin hserved)

theorem Walking.turnover_exprs (h : Walking base m t b s) (hpassed : Passed b s s')
    {xs : List Expr} (hserved : s.program.Served (targetsOf xs)) :
    s'.program.turnover.exprs t xs = s.program.turnover.exprs t xs := by
  rw [Turnover.exprs_eq_map, Turnover.exprs_eq_map]
  apply List.map_congr_left
  intro x hx
  apply h.turnover_expr hpassed
  intro d hd
  apply hserved d
  rw [targetsOf_eq_flatMap]
  exact List.mem_flatMap.mpr ⟨x, hx, hd⟩

/-- The argument that stands for a receiver, in a body that may have been relocated. -/
theorem receiverArg_moved {o : Turnover} {r : Option Relocation} {receiver : Expr}
    (hsome : receiver ≠ .absent) (hpos : ∀ pos', receiver = .implicitThis pos' → pos' = pos) :
    receiverArg pos t (moved Relocation.expr r (o.expr t receiver)) =
      moved Relocation.expr r (passedReceiver pos t receiver (o.expr t receiver)) := by
  cases receiver with
  | absent => exact absurd rfl hsome
  | implicitThis pos' =>
    rw [hpos pos' rfl]
    cases r <;> rfl
  | call pos' receiver' target =>
    by_cases htarget : o.isDefault target = true <;> cases r <;>
      simp [Turnover.expr, htarget, moved, passedReceiver, receiverArg, Relocation.expr]
  | _ => cases r <;> rfl

@[simp] theorem turnover_isDefault (p : Program) : p.turnover.isDefault = p.isDefault := rfl

theorem moved_pair (r : Option Relocation) (x : Expr) (xs : List Expr) :
    moved (fun r (x : Expr × List Expr) => (r.expr x.1, r.exprs x.2)) r (x, xs) =
      (moved Relocation.expr r x, moved Relocation.exprs r xs) := by
  cases r <;> rfl

/-- A visited call of a default method becomes a call of the twin. -/
theorem retargetCall_ends (h : Walking base m t b s) {receiver : Expr} {target : MethodRef}
    {args : List Expr} (htarget : s.program.isDefault target = true) (hb : target ∈ b.targets)
    (hplaced : (Expr.call pos receiver target args).Placed s.program.isDefault)
    (hreceiver : s.program.Served receiver.targets) (hargs : s.program.Served (targetsOf args)) :
    (retargetCall (some m) pos
        (moved Relocation.expr s.moved (s.program.turnover.expr t receiver)) target
        (moved Relocation.exprs s.moved (s.program.turnover.exprs t args))).Ends s fun n s' =>
      Visited base m t b s [target] s' ∧
      n = .expr (moved Relocation.expr s'.moved
        (s'.program.turnover.expr t (.call pos receiver target args))) := by
  obtain ⟨hsome, hpos⟩ := hplaced.1 htarget
  unfold retargetCall
  rw [← moved_pair]
  refine .bind (.holding (Q := fun y s' => Walking base m t b s' ∧ Passed b s s' ∧
    s'.user.counts = s.user.counts ∧ ∃ twin, s'.program.staticOf? target = some twin ∧
      y = (moved (fun r (x : Expr × List Expr) => (r.expr x.1, r.exprs x.2)) s'.moved
        (s.program.turnover.expr t receiver, s.program.turnover.exprs t args), some twin))
    ((twinFor_ends h htarget hb).mono fun found s' hfound => ⟨hfound.2.1.moved, hfound⟩) ?_) ?_
  · rintro found s' ⟨hwalking, hpassed, hcounts, twin, rfl, htwin⟩
    exact ⟨hwalking, hpassed, hcounts, twin, htwin, rfl⟩
  · rintro _ s' ⟨hwalking, hpassed, hcounts, twin, htwin, rfl⟩
    have htarget' : s'.program.isDefault target = true := by
      rw [(h.extends hpassed).isDefault]
      exact htarget
    rw [moved_pair]
    refine .bind_get (.bind_set (.pure ⟨⟨hwalking.user rfl, ⟨hpassed.steps, hpassed.moved,
      hpassed.cache⟩, ?_, ?_⟩, ?_⟩))
    · intro d hd _
      rw [List.mem_singleton.mp hd]
      exact Option.isSome_iff_exists.mpr ⟨twin, htwin⟩
    · -- the call is the one that is counted
      rw [List.countP_singleton, htarget, hcounts]
      rfl
    have hself : ((s'.program.method m).enclosing).getD default = t := hwalking.home
    have htwin' : s'.program.turnover.twin target = twin := by simp [turnover, htwin]
    change Node.expr (.call pos .absent twin (receiverArg pos
      (((s'.program.method m).enclosing).getD default) _ :: _)) = _
    rw [hself, ← h.turnover_expr hpassed hreceiver, ← h.turnover_exprs hpassed hargs,
      receiverArg_moved hsome hpos]
    simp only [Turnover.expr, turnover_isDefault, htarget', if_true, htwin']
    cases s'.moved <;> rfl

/-- What a walk over an expression gives. -/
def ExprTurned (base : NameCache) (m : MethodRef) (t : TypeRef) (b : Body) (x : Expr) : Prop :=
  ∀ s, Walking base m t b s → x.Placed s.program.isDefault → (∀ d ∈ x.targets, d ∈ b.targets) →
    (walkExpr (retarget (some m)) x).Ends s fun y s' => Visited base m t b s x.targets s' ∧
      y = moved Relocation.expr s'.moved (s'.program.turnover.expr t x)

/-- An expression without parts. -/
def Expr.isLeaf : Expr → Bool
  | .absent => false
  | .call .. => false
  | _ => true

theorem Expr.of_isLeaf (h : x.isLeaf = true) :
    x.targets = [] ∧ (∀ (o : Turnover) t, o.expr t x = x) ∧
      (∀ r : Relocation, r.leaf x = r.expr x) ∧ ∀ r, (moved Relocation.expr r x).isLeaf = true := by
  cases x with
  | absent => cases h
  | call => cases h
  | _ => exact ⟨rfl, fun _ _ => rfl, fun _ => rfl, fun r => by cases r <;> rfl⟩

theorem retarget_of_isLeaf (h : x.isLeaf = true) :
    retarget (some m) (.expr x) = pure (.expr x) := by
  cases x with
  | absent => cases h
  | call => cases h
  | _ => rfl

/-- An expression without parts is shown to the visitor as the relocation leaves it. -/
theorem leaf_turned (hleaf : x.isLeaf = true) (h : Walking base m t b s) :
    (do leaveExpr (retarget (some m)) (← Walk.seen x)).Ends s fun y s' =>
      Visited base m t b s x.targets s' ∧
        y = moved Relocation.expr s'.moved (s'.program.turnover.expr t x) := by
  obtain ⟨htargets, hturned, hmove, hleaf'⟩ := Expr.of_isLeaf hleaf
  have hseen : (Walk.seen x : Walk Retargeting Expr).Ends s fun y s' =>
      y = moved Relocation.expr s.moved x ∧ s' = s := by
    refine .bind_get ?_
    rw [h.ahead]
    cases s.moved with
    | none => exact .pure ⟨rfl, rfl⟩
    | some r => exact .pure ⟨hmove r, rfl⟩
  refine .bind hseen ?_
  rintro _ s' ⟨rfl, hs⟩
  subst hs
  refine .leaveExpr h.fault ?_
  rw [retarget_of_isLeaf (hleaf' _)]
  refine .pure ⟨_, rfl, ?_, by rw [hturned]⟩
  rw [htargets]
  exact .here h

/-- Parts walked one after the other: the earlier ones are served and turned over as before. -/
theorem walkExprs_turned {xs : List Expr} (ih : ∀ x ∈ xs, ExprTurned base m t b x)
    (h : Walking base m t b s) (hplaced : PlacedAll s.program.isDefault xs)
    (hb : ∀ d ∈ targetsOf xs, d ∈ b.targets) :
    (walkExprs (retarget (some m)) xs).Ends s fun ys s' => Visited base m t b s (targetsOf xs) s' ∧
      ys = moved Relocation.exprs s'.moved (s'.program.turnover.exprs t xs) := by
  induction xs generalizing s with
  | nil =>
    rw [walkExprs]
    refine .pure ⟨.here h, ?_⟩
    cases s.moved <;> rfl
  | cons x xs ihList =>
    rw [List.forall_mem_cons] at ih
    rw [targetsOf, List.forall_mem_append] at hb
    rw [walkExprs]
    refine .bind (ih.1 s h hplaced.1 hb.1) ?_
    rintro _ s₁ ⟨hx, rfl⟩
    have hext := h.extends hx.passed
    have hplaced' : PlacedAll s₁.program.isDefault xs := by
      rw [hext.isDefault]
      exact hplaced.2
    refine .bind (.holding (Q := fun y s' => Visited base m t b s₁ (targetsOf xs) s' ∧
      y = (moved Relocation.expr s'.moved (s₁.program.turnover.expr t x),
        moved Relocation.exprs s'.moved (s'.program.turnover.exprs t xs)))
      ((ihList ih.2 hx.walking hplaced' hb.2).mono fun ys s' hys =>
        ⟨hys.1.passed.moved, hys⟩) ?_) ?_
    · rintro ys s' ⟨hvisited, rfl⟩
      exact ⟨hvisited, rfl⟩
    · rintro _ s' ⟨hxs, rfl⟩
      refine .pure ⟨hx.trans h hxs, ?_⟩
      rw [← hx.walking.turnover_expr hxs.passed hx.served]
      cases s'.moved <;> rfl

theorem walkExpr_turned (x : Expr) : ExprTurned base m t b x := by
  induction x with
  | absent =>
    intro s h _ _
    rw [walkExpr]
    refine .pure ⟨.here h, ?_⟩
    cases s.moved <;> rfl
  | call pos receiver target args ihReceiver ihArgs =>
    intro s h hplaced hb
    rw [Expr.targets, List.forall_mem_cons, List.forall_mem_append] at hb
    rw [walkExpr]
    refine .bind (ihReceiver s h hplaced.2.1 hb.2.1) ?_
    rintro _ s₁ ⟨hreceiver, rfl⟩
    have hplaced₁ : PlacedAll s₁.program.isDefault args := by
      rw [(h.extends hreceiver.passed).isDefault]
      exact hplaced.2.2
    refine .bind (.holding (Q := fun y s' => Visited base m t b s₁ (targetsOf args) s' ∧
      y = (moved Relocation.expr s'.moved (s₁.program.turnover.expr t receiver),
        moved Relocation.exprs s'.moved (s'.program.turnover.exprs t args)))
      ((walkExprs_turned ihArgs hreceiver.walking hplaced₁ hb.2.2).mono fun ys s' hys =>
        ⟨hys.1.passed.moved, hys⟩) ?_) ?_
    · rintro ys s' ⟨hvisited, rfl⟩
      exact ⟨hvisited, rfl⟩
    · rintro _ s₂ ⟨hargs, rfl⟩
      have hext := h.extends (hreceiver.passed.trans hargs.passed)
      have hserved : s₂.program.Served receiver.targets :=
        (hreceiver.walking.extends hargs.passed).served hreceiver.served
      have hparts : Visited base m t b s (receiver.targets ++ targetsOf args) s₂ :=
        hreceiver.trans h hargs
      -- the call is visited after its parts
      have horder : (receiver.targets ++ targetsOf args ++ [target]).Perm
          (Expr.call pos receiver target args).targets :=
        List.perm_append_singleton target _
      -- twins made for the arguments do not change what the receiver was turned into
      rw [← hreceiver.walking.turnover_expr hargs.passed hreceiver.served]
      refine .leaveExpr hargs.walking.fault (.bind_get ?_)
      by_cases htarget : s₂.program.isDefault target = true
      · rw [if_pos htarget]
        have hplaced₂ : (Expr.call pos receiver target args).Placed s₂.program.isDefault := by
          rw [hext.isDefault]
          exact hplaced
        refine (retargetCall_ends hargs.walking htarget hb.1 hplaced₂ hserved hargs.served).mono ?_
        rintro _ s₃ ⟨hcall, rfl⟩
        exact ⟨_, rfl, (hparts.trans h hcall).perm horder, rfl⟩
      · rw [if_neg htarget]
        have hcall := Visited.other hargs.walking (Bool.eq_false_iff.mpr htarget)
        refine .pure ⟨_, rfl, (hparts.trans h hcall).perm horder, ?_⟩
        simp only [Turnover.expr, turnover_isDefault, htarget]
        cases s₂.moved <;> rfl
  | _ =>
    intro s h _ _
    rw [walkExpr]
    exact leaf_turned rfl h

/-- What a walk over a statement gives. -/
def StmtTurned (base : NameCache) (m : MethodRef) (t : TypeRef) (b : Body) (x : Stmt) : Prop :=
  ∀ s, Walking base m t b s → x.Placed s.program.isDefault → (∀ d ∈ x.targets, d ∈ b.targets) →
    (walkStmt (retarget (some m)) x).Ends s fun y s' => Visited base m t b s x.targets s' ∧
      y = moved Relocation.stmt s'.moved (s'.program.turnover.stmt t x)

theorem Walking.turnover_stmt (h : Walking base m t b s) (hpassed : Passed b s s') {x : Stmt}
    (hserved : s.program.Served x.targets) :
    s'.program.turnover.stmt t x = s.program.turnover.stmt t x :=
  Turnover.stmt_congr (h.extends hpassed).isDefault ((h.extends hpassed).turnover_twin hserved)

/-- Statements are left as their parts make them. -/
theorem leaveStmt_ends {x : Stmt} {Q : Stmt → WalkState Retargeting → Prop}
    (hfault : s.fault = none) (h : Q x s) : (leaveStmt (retarget (some m)) x).Ends s Q :=
  .leaveStmt hfault (.pure ⟨x, rfl, h⟩)

theorem bind_leaveStmt {x : Stmt} {α : Type} {f : Stmt → Walk Retargeting α}
    {Q : α → WalkState Retargeting → Prop} (hfault : s.fault = none) (h : (f x).Ends s Q) :
    (leaveStmt (retarget (some m)) x >>= f).Ends s Q := by
  refine .bind (leaveStmt_ends (Q := fun y s' => y = x ∧ s' = s) hfault ⟨rfl, rfl⟩) ?_
  rintro y s' ⟨rfl, rfl⟩
  exact h

theorem walkStmts_of_forall {xs : List Stmt} (ih : ∀ x ∈ xs, StmtTurned base m t b x)
    (h : Walking base m t b s) (hplaced : StmtsPlaced s.program.isDefault xs)
    (hb : ∀ d ∈ targetsOfStmts xs, d ∈ b.targets) :
    (walkStmts (retarget (some m)) xs).Ends s fun ys s' =>
      Visited base m t b s (targetsOfStmts xs) s' ∧
      ys = moved Relocation.stmts s'.moved (s'.program.turnover.stmts t xs) := by
  induction xs generalizing s with
  | nil =>
    rw [walkStmts]
    refine .pure ⟨.here h, ?_⟩
    cases s.moved <;> rfl
  | cons x xs ihList =>
    rw [List.forall_mem_cons] at ih
    rw [targetsOfStmts, List.forall_mem_append] at hb
    rw [walkStmts]
    refine .bind (ih.1 s h hplaced.1 hb.1) ?_
    rintro _ s₁ ⟨hx, rfl⟩
    have hplaced₁ : StmtsPlaced s₁.program.isDefault xs := by
      rw [(h.extends hx.passed).isDefault]
      exact hplaced.2
    refine .bind (.holding (Q := fun y s' => Visited base m t b s₁ (targetsOfStmts xs) s' ∧
      y = (moved Relocation.stmt s'.moved (s₁.program.turnover.stmt t x),
        moved Relocation.stmts s'.moved (s'.program.turnover.stmts t xs)))
      ((ihList ih.2 hx.walking hplaced₁ hb.2).mono fun ys s' hys =>
        ⟨hys.1.passed.moved, hys⟩) ?_) ?_
    · rintro ys s' ⟨hvisited, rfl⟩
      exact ⟨hvisited, rfl⟩
    · rintro _ s' ⟨hxs, rfl⟩
      refine .pure ⟨hx.trans h hxs, ?_⟩
      rw [← hx.walking.turnover_stmt hxs.passed hx.served]
      cases s'.moved <;> rfl

theorem walkStmt_turned (x : Stmt) : StmtTurned base m t b x := by
  induction x with
  | absent => exact fun _ _ hplaced => hplaced.elim
  | block pos xs ih =>
    intro s h hplaced hb
    rw [walkStmt]
    refine .bind (walkStmts_of_forall ih h hplaced hb) ?_
    rintro _ s' ⟨hvisited, rfl⟩
    refine leaveStmt_ends hvisited.walking.fault ⟨hvisited, ?_⟩
    cases s'.moved <;> rfl
  | ret pos x | expr pos x | decl pos v x =>
    intro s h hplaced hb
    rw [walkStmt]
    refine .bind (walkExpr_turned x s h hplaced hb) ?_
    rintro _ s' ⟨hvisited, rfl⟩
    refine leaveStmt_ends hvisited.walking.fault ⟨hvisited, ?_⟩
    cases s'.moved <;> rfl

theorem walkStmts_turned {xs : List Stmt} (h : Walking base m t b s)
    (hplaced : StmtsPlaced s.program.isDefault xs)
    (hb : ∀ d ∈ targetsOfStmts xs, d ∈ b.targets) :
    (walkStmts (retarget (some m)) xs).Ends s fun ys s' =>
      Visited base m t b s (targetsOfStmts xs) s' ∧
      ys = moved Relocation.stmts s'.moved (s'.program.turnover.stmts t xs) :=
  walkStmts_of_forall (fun x _ => walkStmt_turned x) h hplaced hb

/-! ## Section 5: Linkage -/

/-- The identifier that is remembered for the twin of a default method. -/
def twinIdent (p : Program) (cache : NameCache) (d : MethodRef) : String :=
  ((p.staticOf? d).bind fun twin => cache.idents.lookup (p.key twin)).getD ""

/-- The default methods of these entries have twins whose identifiers are remembered. -/
def TwinsKnown (p : Program) (cache : NameCache) (refs : List Linkage) : Prop :=
  ∀ d ∈ linkTargets refs, p.isDefault d = true → ∃ twin ident,
    p.staticOf? d = some twin ∧ cache.idents.lookup (p.key twin) = some ident

/-- The same in a state of the walk. -/
def Linked (s : WalkState Retargeting) (refs : List Linkage) : Prop :=
  TwinsKnown s.program s.user.cache refs

/-- The entries as they are turned over in a state. -/
def relinked (s : WalkState Retargeting) (refs : List Linkage) : List Linkage :=
  refs.map (s.program.relink (twinIdent s.program s.user.cache))

/-- The renames that go with them. -/
def renamesIn (s : WalkState Retargeting) (refs : List Linkage) : Renames :=
  s.program.linkRenames (twinIdent s.program s.user.cache) refs

theorem Walking.twinIdent_eq (h : Walking base m t b s) (hpassed : Passed b s s')
    (hlinked : Linked s refs) (hd : d ∈ linkTargets refs)
    (hdefault : s.program.isDefault d = true) :
    s'.program.staticOf? d = s.program.staticOf? d ∧
      twinIdent s'.program s'.user.cache d = twinIdent s.program s.user.cache d := by
  have hext := h.extends hpassed
  obtain ⟨twin, ident, htwin, hident⟩ := hlinked d hd hdefault
  have hkey := hext.key (h.coherent.twin d twin hdefault htwin).lt
  have htwin' := hext.staticOf d twin hdefault htwin
  refine ⟨htwin'.trans htwin.symm, ?_⟩
  simp [twinIdent, htwin, htwin', hkey, hident, hpassed.cache _ _ hident]

/-- Entries that were turned over stay as they are. -/
theorem Walking.relinked_eq (h : Walking base m t b s) (hpassed : Passed b s s')
    (hlinked : Linked s refs) :
    relinked s' refs = relinked s refs ∧ renamesIn s' refs = renamesIn s refs := by
  have hdefault := (h.extends hpassed).isDefault
  have htwin : ∀ d ∈ linkTargets refs, s.program.isDefault d = true →
      s'.program.staticOf? d = s.program.staticOf? d ∧
        twinIdent s'.program s'.user.cache d = twinIdent s.program s.user.cache d :=
    fun d hd hisDefault => h.twinIdent_eq hpassed hlinked hd hisDefault
  constructor
  · exact relink_congr hdefault (fun d hd h => (htwin d hd h).2) fun d hd h => (htwin d hd h).1
  · exact linkRenames_congr hdefault fun d hd h => (htwin d hd h).2

theorem Linked.passed (hlinked : Linked s refs) (h : Walking base m t b s)
    (hpassed : Passed b s s') : Linked s' refs := by
  intro d hd hdefault
  have hext := h.extends hpassed
  rw [hext.isDefault] at hdefault
  obtain ⟨twin, ident, htwin, hident⟩ := hlinked d hd hdefault
  refine ⟨twin, ident, hext.staticOf d twin hdefault htwin, ?_⟩
  rw [hext.key (h.coherent.twin d twin hdefault htwin).lt]
  exact hpassed.cache _ _ hident

theorem Linked.snoc (hlinked : Linked s refs) (hr : Linked s [r]) : Linked s (refs ++ [r]) := by
  intro d hd
  obtain ⟨r', hr', htarget⟩ := mem_linkTargets.mp hd
  rcases List.mem_append.mp hr' with hmem | hmem
  · exact hlinked d (mem_linkTargets.mpr ⟨r', hmem, htarget⟩)
  · exact hr d (mem_linkTargets.mpr ⟨r', hmem, htarget⟩)

theorem lookup_identOf (cache : NameCache) (p : Program) (k : MethodRef) :
    (cache.identOf p k).2.idents.lookup (p.key k) = some (cache.identOf p k).1 := by
  unfold NameCache.identOf
  cases hlookup : cache.idents.lookup (p.key k) with
  | some => exact hlookup
  | none => simp [List.lookup_append, hlookup]

theorem lookup_identOf_of_some {key : MethodKey} (h : cache.idents.lookup key = some ident) :
    (cache.identOf p k).2.idents.lookup key = some ident := by
  unfold NameCache.identOf
  cases cache.idents.lookup (p.key k) with
  | some => exact h
  | none => simp [List.lookup_append, h]

theorem Remembers.identOf (h : Remembers base p cache) (hk : k.index < p.methods.length) :
    Remembers base p (cache.identOf p k).2 := by
  intro key ident hlookup
  unfold NameCache.identOf at hlookup
  cases hknown : cache.idents.lookup (p.key k) with
  | some =>
    rw [hknown] at hlookup
    exact h key ident hlookup
  | none =>
    rw [hknown, List.lookup_append] at hlookup
    rcases Option.or_eq_some_iff.mp hlookup with hold | ⟨-, hnew⟩
    · exact h key ident hold
    · obtain ⟨xs, ys, hlist, -⟩ := List.lookup_eq_some_iff.mp hnew
      have hmem : (key, ident) ∈ [(p.key k, "@" ++ p.memberText k)] := by
        rw [hlist]
        simp
      rw [List.mem_singleton, Prod.mk.injEq] at hmem
      exact .inr ⟨k, hk, hmem.1.symm, hmem.2⟩

/-- The state in which the identifier of a method has been asked for. -/
def remembering (s : WalkState Retargeting) (k : MethodRef) : WalkState Retargeting :=
  { s with user := { s.user with cache := (s.user.cache.identOf s.program k).2 } }

theorem Walking.remembering (h : Walking base m t b s) (hk : k.index < s.program.methods.length) :
    Walking base m t b (remembering s k) :=
  ⟨h.coherent, h.remembers.identOf hk, h.fault, h.ahead, h.home, h.body, h.here, h.there⟩

theorem passed_remembering (s : WalkState Retargeting) (k : MethodRef) :
    Passed b s (remembering s k) :=
  ⟨.refl, fun _ hr => hr, fun _ _ => lookup_identOf_of_some⟩

theorem Linked.of_none (h : s.program.linkedDefault r = none) : Linked s [r] := by
  intro d hd hdefault
  obtain ⟨r', hr', htarget⟩ := mem_linkTargets.mp hd
  rw [List.mem_singleton.mp hr'] at htarget
  rw [linkedDefault_eq_none.mp h d htarget] at hdefault
  cases hdefault

theorem Linked.of_some {twin : MethodRef} (hd : r.target = some d)
    (htwin : s.program.staticOf? d = some twin)
    (hident : s.user.cache.idents.lookup (s.program.key twin) = some ident) : Linked s [r] := by
  intro k hk _
  obtain ⟨r', hr', htarget⟩ := mem_linkTargets.mp hk
  rw [List.mem_singleton.mp hr', hd, Option.some.injEq] at htarget
  exact ⟨twin, ident, htarget ▸ htwin, hident⟩

/-- An entry of another method is kept. -/
theorem relinked_snoc_of_none (done : List Linkage) (h : s.program.linkedDefault r = none) :
    relinked s (done ++ [r]) = relinked s done ++ [r] ∧
      renamesIn s (done ++ [r]) = renamesIn s done := by
  constructor
  · simp [relinked, relink, h]
  · simp [renamesIn, linkRenames, h]

/-- An entry of a default method becomes one of its twin. -/
theorem relinked_snoc_of_some (done : List Linkage) {twin : MethodRef}
    (h : s.program.linkedDefault r = some d) (htwin : s.program.staticOf? d = some twin)
    (hident : s.user.cache.idents.lookup (s.program.key twin) = some ident) :
    relinked s (done ++ [r]) =
        relinked s done ++ [{ r with ident := ident, target := some twin }] ∧
      renamesIn s (done ++ [r]) = renamesIn s done ++ [(r.ident, ident)] := by
  have hname : twinIdent s.program s.user.cache d = ident := by
    simp [twinIdent, htwin, hident]
  constructor
  · simp [relinked, relink, h, hname, htwin]
  · simp [renamesIn, linkRenames, h, hname]

/-- Turns the linkage over entry by entry; `done` are the entries behind. -/
theorem retargetLinkage_ends {done rest : List Linkage} (h : Walking base m t b s)
    (hlinked : Linked s done) (hb : ∀ d ∈ linkTargets rest, d ∈ b.targets) :
    (retargetLinkage (relinked s done) (renamesIn s done) rest).Ends s fun result s' =>
      Walking base m t b s' ∧ Passed b s s' ∧ s'.user.counts = s.user.counts ∧
      Linked s' (done ++ rest) ∧ result = (relinked s' (done ++ rest), renamesIn s' (done ++ rest)) := by
  induction rest generalizing s done with
  | nil =>
    rw [retargetLinkage, List.append_nil]
    exact .pure ⟨h, .refl s, rfl, hlinked, rfl⟩
  | cons r rest ih =>
    have hrest : ∀ d ∈ linkTargets rest, d ∈ b.targets := by
      intro d hd
      obtain ⟨r', hr', hd'⟩ := mem_linkTargets.mp hd
      exact hb d (mem_linkTargets.mpr ⟨r', List.mem_cons_of_mem _ hr', hd'⟩)
    rw [List.append_cons]
    rw [retargetLinkage]
    refine .bind_halted h.fault ?_
    cases htarget : s.program.linkedDefault r with
    | none =>
      obtain ⟨hdone, hrenames⟩ := relinked_snoc_of_none done htarget
      have hnext := ih h (hlinked.snoc (.of_none htarget)) hrest
      rw [hdone, hrenames] at hnext
      cases hk : r.target with
      | none => exact hnext
      | some k =>
        refine .bind_get ?_
        rw [linkedDefault_eq_none.mp htarget k hk]
        exact hnext
    | some d =>
      obtain ⟨hd, hdefault⟩ := linkedDefault_eq_some.mp htarget
      simp only [hd]
      refine .bind_get ?_
      rw [hdefault]
      have hd' := hb d (mem_linkTargets.mpr ⟨r, List.mem_cons_self, hd⟩)
      refine .bind (twinFor_ends h hdefault hd') ?_
      rintro _ s₁ ⟨hwalking, hpassed, hcounts, twin, rfl, htwin⟩
      refine .bind_get (.bind_set ?_)
      have hdefault₁ : s₁.program.isDefault d = true := by
        rw [(h.extends hpassed).isDefault]
        exact hdefault
      have hwalking₂ : Walking base m t b (remembering s₁ twin) :=
        hwalking.remembering (hwalking.coherent.twin d twin hdefault₁ htwin).lt
      have hpassed₂ := hpassed.trans (passed_remembering s₁ twin)
      have hident : (remembering s₁ twin).user.cache.idents.lookup (s₁.program.key twin) =
          some (s₁.user.cache.identOf s₁.program twin).1 := lookup_identOf ..
      -- what was turned over before is not touched by the new twin and its identifier
      obtain ⟨hdone, hrenames⟩ := h.relinked_eq hpassed₂ hlinked
      obtain ⟨hdone₂, hrenames₂⟩ := relinked_snoc_of_some (s := remembering s₁ twin) done
        (linkedDefault_eq_some.mpr ⟨hd, hdefault₁⟩) htwin hident
      have hnext := ih hwalking₂ ((hlinked.passed h hpassed₂).snoc (.of_some hd htwin hident)) hrest
      rw [hdone₂, hrenames₂, hdone, hrenames] at hnext
      refine hnext.mono ?_
      rintro _ s' ⟨hwalking', hpassed', hcounts', hlinked', rfl⟩
      exact ⟨hwalking', hpassed₂.trans hpassed', hcounts'.trans hcounts, hlinked', rfl⟩

/-! ## Section 6: Whole bodies -/

/-- The second program has another body of one method, which uses no default method.  What there was to
    retarget in the old one is counted. -/
def Unloads (p : Program) (before : RetargetCounts) (q : Program) (after : RetargetCounts) : Prop :=
  ∃ k c globals, k.index < p.methods.length ∧ q = p.withBody k c globals ∧ q.Clean k ∧
    after = before + p.load k

/-- The body that comes back from a walk is put where the walked body is by then. -/
structure Retargeted (base : NameCache) (m : MethodRef) (b : Body) (s : WalkState Retargeting)
    (c : Body) (s' : WalkState Retargeting) : Prop where
  steps : Steps (.retargeting (· ∈ b.targets) base s'.user.cache) s.program
    (s'.program.setBody s'.owner (some c))
  remembers : Remembers base (s'.program.setBody s'.owner (some c)) s'.user.cache
  clean : (s'.program.setBody s'.owner (some c)).Clean m
  cache : ∀ key ident, s.user.cache.idents.lookup key = some ident →
    s'.user.cache.idents.lookup key = some ident
  /-- Twins are made first, for which nothing is counted. -/
  unloads : ∃ r, Steps (.making b) s.program r ∧
    r.Unloads s.user.counts (s'.program.setBody s'.owner (some c)) s'.user.counts

/-- After a last step that leaves the owner of the body clean, the walked method is clean: it is the
    owner, or it passes everything on to the owner. -/
theorem Walking.retargeted {s₁ : WalkState Retargeting} {c c' : Body} {globals : List String}
    (h : Walking base m t b s₁) (hpassed : Passed b s s₁)
    (hlast : Steps (.retargeting (· ∈ b.targets) base s₁.user.cache) s₁.program q)
    (hbody : q = s₁.program.withBody s₁.owner c' globals) (hclean : q.Clean s₁.owner)
    (hq : s'.program.setBody s'.owner (some c) = q) (hcache : s'.user.cache = s₁.user.cache)
    (hcounts : s'.user.counts = s.user.counts + s₁.program.load s₁.owner) :
    Retargeted base m b s c s' := by
  have hext := hlast.extends h.coherent
  refine ⟨?_, ?_, ?_, ?_, ?_⟩
  · rw [hq, hcache]
    exact (hpassed.steps.mono (Permit.making_within fun _ hd => hd)).trans hlast
  · rw [hq, hcache]
    exact h.remembers.extends hext
  · rw [hq]
    cases hmoved : s₁.moved with
    | none =>
      rw [h.here hmoved] at hclean
      exact hclean
    | some r =>
      obtain ⟨-, hm, htwin⟩ := h.there r hmoved
      refine (hlast.coherent h.coherent).clean_of_twin ?_ (hext.staticOf m r.twin hm htwin)
      rw [hext.isDefault]
      exact hm
  · rw [hcache]
    exact hpassed.cache
  · rw [hq]
    exact ⟨s₁.program, hpassed.steps, s₁.owner, c', globals, lt_of_body h.body, hbody, hclean,
      hcounts⟩

theorem Walking.clean_owner (h : Walking base m t b s)
    (hclean : ∀ d ∈ b.targets, s.program.isDefault d = false) : s.program.Clean s.owner := by
  intro c hc d hd
  rw [h.body] at hc
  cases hc
  apply hclean d
  cases hmoved : s.moved with
  | none => rwa [hmoved] at hd
  | some r =>
    rw [hmoved] at hd
    rwa [← r.targets_body]

/-- A body that uses no default method comes back as it was. -/
theorem Walking.retargeted_clean {s₁ : WalkState Retargeting} (h : Walking base m t b s₁)
    (hpassed : Passed b s s₁) (hclean : ∀ d ∈ b.targets, s₁.program.isDefault d = false)
    (hcounts : s₁.user.counts = s.user.counts) :
    Retargeted base m b s (moved Relocation.body s₁.moved b) s₁ := by
  have howner := h.clean_owner hclean
  refine h.retargeted hpassed .refl (withBody_eq_self h.body).symm howner
    (setBody_eq_self h.body) rfl ?_
  rw [load_of_clean howner, hcounts, add_zero]

/-- After some steps there is a fragment that would have to be renamed and cannot be, which is the
    reason for a fault. -/
def Stopped (base : NameCache) (p : Program) (fault : Fault) : Prop :=
  ∃ q owner pos f refs name, Steps (.any base) p q ∧
    (q.method owner).body = some (.native pos (some f) refs) ∧
    q.linkRenames name refs ≠ [] ∧ ¬f.Safe (q.linkRenames name refs) ∧
    (f.Blocks → fault.category = .invariant)

theorem Stopped.of_steps {permit : Permit} {fault : Fault} (hwithin : permit.Within (.any base))
    (hsteps : Steps permit p q) (h : Stopped base q fault) :
    Stopped base p fault := by
  obtain ⟨r, owner, pos, f, refs, name, hrest, hstopped⟩ := h
  exact ⟨r, owner, pos, f, refs, name, (hsteps.mono hwithin).trans hrest, hstopped⟩

/-- What comes of the walk over a body. -/
structure Outcome (base : NameCache) (m : MethodRef) (b : Body) (s : WalkState Retargeting)
    (c : Body) (s' : WalkState Retargeting) : Prop where
  done : s'.fault = none → Retargeted base m b s c s'
  stopped : ∀ fault, s'.fault = some fault → Stopped base s.program fault

theorem Outcome.of_done {c : Body} (hfault : s'.fault = none)
    (h : Retargeted base m b s c s') : Outcome base m b s c s' := by
  refine ⟨fun _ => h, fun fault hsome => ?_⟩
  rw [hfault] at hsome
  cases hsome

/-- Where the body of the method is, the twins of the methods of its type are at home as well. -/
theorem walkBody_code {block : Block} (h : Walking base m t (.code pos (some block)) s)
    (hmoved : s.moved = none) :
    (walkBody (retarget (some m)) (.code pos (some block))).Ends s
      (Outcome base m (.code pos (some block)) s) := by
  have hbody := h.body
  rw [hmoved, h.here hmoved] at hbody
  have hplaced := h.coherent.placed m pos block hbody
  rw [walkBody]
  refine .bind (walkStmts_turned h hplaced fun _ hd => hd) ?_
  rintro _ s' ⟨hvisited, rfl⟩
  refine bind_leaveStmt hvisited.walking.fault ?_
  refine .leaveBody hvisited.walking.fault (.pure ⟨_, rfl, .of_done hvisited.walking.fault ?_⟩)
  have hw := hvisited.walking
  have hplaced' : StmtsPlaced s'.program.turnover.isDefault block.stmts := by
    rw [turnover_isDefault, (h.extends hvisited.passed).isDefault]
    exact hplaced
  -- the stored block, and what the rule makes of it where it is stored
  obtain ⟨stored, hstored, hpos, htargets, hturned⟩ : ∃ stored : Block,
      (s'.program.method s'.owner).body = some (.code pos (some stored)) ∧
      stored.pos = block.pos ∧ targetsOfStmts stored.stmts = targetsOfStmts block.stmts ∧
      s'.program.turnover.stmts (s'.program.home s'.owner) stored.stmts =
        moved Relocation.stmts s'.moved (s'.program.turnover.stmts t block.stmts) := by
    cases hm : s'.moved with
    | none =>
      refine ⟨block, ?_, rfl, rfl, ?_⟩
      · rw [hw.body, hm]
        rfl
      · rw [hw.here hm, hw.home]
        rfl
    | some r =>
      refine ⟨⟨block.pos, r.stmts block.stmts⟩, ?_, rfl, r.targets_stmts _, ?_⟩
      · rw [hw.body, hm]
        rfl
      · exact Turnover.stmts_relocation t _ r hplaced'
  have hserved : s'.program.Served (targetsOfStmts stored.stmts) := by
    rw [htargets]
    exact hvisited.served
  refine hw.retargeted (q := s'.program.withBody s'.owner (.code pos (some ⟨stored.pos,
    s'.program.turnover.stmts (s'.program.home s'.owner) stored.stmts⟩)) s'.program.globals)
    hvisited.passed (.single (.code s'.owner pos stored hstored hserved trivial)) rfl
    (clean_code hw.coherent hstored hserved) ?_ rfl ?_
  · rw [hturned, hpos]
    rfl
  · -- the stored block has the calls of the walked one
    rw [hvisited.counts, load, hstored, ← htargets, ← (h.extends hvisited.passed).isDefault]
    rfl

/-- The identifiers that entries get are those of their twins. -/
theorem Walking.names (h : Walking base m t b s) (hlinked : Linked s refs) :
    ∀ d ∈ linkTargets refs, s.program.isDefault d = true → ∀ twin,
      s.program.staticOf? d = some twin →
      (Permit.retargeting (· ∈ b.targets) base s.user.cache).names s.program twin
        (twinIdent s.program s.user.cache d) := by
  intro d hd hdefault twin htwin
  obtain ⟨twin', ident, htwin', hident⟩ := hlinked d hd hdefault
  rw [htwin, Option.some.injEq] at htwin'
  subst htwin'
  have hname : twinIdent s.program s.user.cache d = ident := by
    simp [twinIdent, htwin, hident]
  rw [hname]
  exact ⟨h.remembers _ _ hident, hident⟩

/-- The linkage is turned over while the fragment is held, which a twin may move. -/
theorem holding_retargetLinkage (h : Walking base m t (.native pos func refs) s) :
    (Walk.holding (fun _ => Option.map Fragment.Function.withReceiver)
      (moved (fun _ => Option.map Fragment.Function.withReceiver) s.moved func)
      (retargetLinkage [] [] refs)).Ends s fun y s' =>
        Walking base m t (.native pos func refs) s' ∧ Passed (.native pos func refs) s s' ∧
        s'.user.counts = s.user.counts ∧ Linked s' refs ∧
        y = (moved (fun _ => Option.map Fragment.Function.withReceiver) s'.moved func,
          relinked s' refs, renamesIn s' refs) := by
  have hstart : Linked s [] := by
    intro d hd
    cases hd
  refine .holding ((retargetLinkage_ends h hstart fun _ hd => hd).mono fun result s' hresult =>
    ⟨hresult.2.1.moved, hresult⟩) ?_
  rintro _ s' ⟨hwalking, hpassed, hcounts, hlinked, rfl⟩
  exact ⟨hwalking, hpassed, hcounts, hlinked, rfl⟩

/-- The fragment of a native body in the middle of a walk. -/
theorem Walking.stored_fragment (h : Walking base m t (.native pos func refs) s) :
    ∃ f, moved (fun _ => Option.map Fragment.Function.withReceiver) s.moved func = some f ∧
      moved Relocation.body s.moved (.native pos func refs) = .native pos (some f) refs ∧
      (s.program.method s.owner).body = some (.native pos (some f) refs) := by
  have hmoved : moved Relocation.body s.moved (.native pos func refs) = .native pos
      (moved (fun _ => Option.map Fragment.Function.withReceiver) s.moved func) refs := by
    cases s.moved <;> rfl
  have hstored := h.body
  rw [hmoved] at hstored
  obtain ⟨f, hf⟩ := Option.isSome_iff_exists.mp (h.coherent.fragment _ _ _ _ hstored)
  rw [hf] at hstored hmoved
  exact ⟨f, hf, hmoved, hstored⟩

/-- A fragment is renamed as the rule says, or it cannot be renamed. -/
theorem walkBody_native (h : Walking base m t (.native pos func refs) s) (hmoved : s.moved = none) :
    (walkBody (retarget (some m)) (.native pos func refs)).Ends s
      (Outcome base m (.native pos func refs) s) := by
  have hlink := holding_retargetLinkage h
  rw [hmoved] at hlink
  refine .leaveBody h.fault (.bind hlink ?_)
  rintro _ s₁ ⟨hw, hpassed, hcounts, hlinked, rfl⟩
  refine .bind_halted hw.fault ?_
  obtain ⟨f, hf, hsame, hstored⟩ := hw.stored_fragment
  rw [hf]
  by_cases hrenames : renamesIn s₁ refs = []
  · -- nothing is linked to a default method
    have hclean := linkRenames_eq_nil.mp hrenames
    have hkept : relinked s₁ refs = refs := map_relink_of_clean hclean
    rw [hrenames, hkept]
    refine .pure ⟨_, rfl, .of_done hw.fault ?_⟩
    rw [← hsame]
    exact hw.retargeted_clean hpassed hclean hcounts
  · simp only [Bool.false_eq_true, if_false, List.isEmpty_iff, hrenames]
    refine .bind_get ?_
    by_cases hsafe : f.Safe (renamesIn s₁ refs)
    · obtain ⟨hnode, hscopes, hnone⟩ := Fragment.rename_of_safe s₁.program.globals hsafe
      simp only [hnode, hscopes, hnone]
      refine .bind_set (.pure ⟨_, rfl, .of_done hw.fault ?_⟩)
      refine hw.retargeted hpassed
        (.single (.fragment s₁.owner pos f refs _ hstored ?_ (hw.names hlinked) hrenames hsafe
          trivial)) rfl (clean_fragment hw.coherent _ _ hstored) rfl rfl ?_
      · intro d hd hdefault
        obtain ⟨twin, -, htwin, -⟩ := hlinked d hd hdefault
        rw [htwin]
        rfl
      · have hload : s₁.program.load s₁.owner = s₁.program.fragmentWork f refs := by
          rw [load, hstored]
          rfl
        rw [hload, fragmentWork_of_safe s₁.program.globals hrenames hsafe, ← hcounts]
        rfl
    · obtain ⟨fault, hfault, hcategory⟩ := Fragment.rename_of_not_safe s₁.program.globals hsafe
      simp only [hfault]
      refine .bind_set (.bind (.halt fault hw.fault) ?_)
      intro _ s' hhalted
      refine .pure ⟨_, rfl, ?_, ?_⟩
      · intro hnone
        rw [hhalted] at hnone
        cases hnone
      · intro fault' hfault'
        rw [hhalted, Option.some.injEq] at hfault'
        subst hfault'
        have hsteps : Steps (.any base) s.program s₁.program :=
          hpassed.steps.mono (Permit.within_any fun _ _ _ => False.elim)
        exact ⟨s₁.program, s₁.owner, pos, f, refs, _, hsteps, hstored, hrenames, hsafe, hcategory⟩

theorem walkBody_ends (h : Walking base m t b s) (hmoved : s.moved = none) :
    (walkBody (retarget (some m)) b).Ends s (Outcome base m b s) := by
  rcases b with ⟨pos, _ | block⟩ | ⟨pos, func, refs⟩
  · refine .leaveBody h.fault (.pure ⟨_, rfl, .of_done h.fault ?_⟩)
    have hkept := h.retargeted_clean (.refl s) (fun d hd => by cases hd) rfl
    rw [hmoved] at hkept
    exact hkept
  · exact walkBody_code h hmoved
  · exact walkBody_native h hmoved

/-- The walk over the body of a method, from its beginning. -/
theorem walkMethod_ends (hp : w.program.Coherent)
    (hremembers : Remembers base w.program w.user.cache)
    (hbody : (w.program.method m).body = some b) :
    ∃ c s', walkMethod (retarget (some m)) m w =
        { program := s'.program.setBody s'.owner (some c), user := s'.user, fault := s'.fault } ∧
      Outcome base m b { program := w.program, user := w.user, owner := m } c s' := by
  have hstart : Walking base m (w.program.home m) b
      { program := w.program, user := w.user, owner := m } :=
    ⟨hp, hremembers, rfl, rfl, rfl, hbody, fun _ => rfl, fun _ hr => by cases hr⟩
  refine ⟨_, _, ?_, walkBody_ends hstart rfl⟩
  simp only [walkMethod, hbody]
  rfl

/-- Walking a method is some steps, after which the method uses no default method. -/
theorem walkMethod_steps (hp : w.program.Coherent)
    (hremembers : Remembers base w.program w.user.cache)
    (hfault : (walkMethod (retarget (some m)) m w).fault = none) :
    Steps (.retargeting (w.program.UsedIn m) base
        (walkMethod (retarget (some m)) m w).user.cache)
        w.program (walkMethod (retarget (some m)) m w).program ∧
      Remembers base (walkMethod (retarget (some m)) m w).program
        (walkMethod (retarget (some m)) m w).user.cache ∧
      (walkMethod (retarget (some m)) m w).program.Clean m ∧
      ∀ key ident, w.user.cache.idents.lookup key = some ident →
        (walkMethod (retarget (some m)) m w).user.cache.idents.lookup key = some ident := by
  cases hbody : (w.program.method m).body with
  | none =>
    have hw : walkMethod (retarget (some m)) m w = w := by simp only [walkMethod, hbody]
    rw [hw]
    refine ⟨.refl, hremembers, fun b hb => ?_, fun _ _ h => h⟩
    rw [hbody] at hb
    cases hb
  | some b =>
    obtain ⟨c, s', hw, houtcome⟩ := walkMethod_ends hp hremembers hbody
    rw [hw] at hfault ⊢
    obtain ⟨hsteps, hremembers', hclean, hcache, -⟩ := houtcome.done hfault
    have hwithin : (Permit.retargeting (· ∈ b.targets) base s'.user.cache).Within
        (.retargeting (w.program.UsedIn m) base s'.user.cache) :=
      Permit.retargeting_within (fun d hd => ⟨b, hbody, hd⟩) fun _ _ h => h
    exact ⟨hsteps.mono hwithin, hremembers', hclean, hcache⟩

/-- After some twins, for which nothing is counted, one body is turned over, and all that was done to it
    is counted. -/
theorem walkMethod_unloads (hp : w.program.Coherent)
    (hremembers : Remembers base w.program w.user.cache)
    (hbody : (w.program.method m).body = some b)
    (hfault : (walkMethod (retarget (some m)) m w).fault = none) :
    ∃ r, Steps (.making b) w.program r ∧
      r.Unloads w.user.counts (walkMethod (retarget (some m)) m w).program
        (walkMethod (retarget (some m)) m w).user.counts := by
  obtain ⟨c, s', hw, houtcome⟩ := walkMethod_ends hp hremembers hbody
  rw [hw] at hfault ⊢
  exact (houtcome.done hfault).unloads

/-- A fault of the walk over a method comes from a fragment that cannot be renamed. -/
theorem walkMethod_stopped (hp : w.program.Coherent)
    (hremembers : Remembers base w.program w.user.cache) (hbefore : w.fault = none) {fault : Fault}
    (hfault : (walkMethod (retarget (some m)) m w).fault = some fault) :
    Stopped base w.program fault := by
  cases hbody : (w.program.method m).body with
  | none =>
    have hw : walkMethod (retarget (some m)) m w = w := by simp only [walkMethod, hbody]
    rw [hw, hbefore] at hfault
    cases hfault
  | some =>
    obtain ⟨c, s', hw, houtcome⟩ := walkMethod_ends hp hremembers hbody
    rw [hw] at hfault
    exact houtcome.stopped fault hfault

end

end DefaultLowering.Program
