import DefaultLowering.Lowering.Run
import DefaultLowering.Proofs.PlainKeys

/-!
# A run, question by question

A run uses the cache for one thing only: it asks for the identifiers of methods.  Here a run is taken
apart at these questions.  What lies between two of them neither reads the cache nor changes it
(`Quiet`), so that it does not matter what else happens to the cache in the meantime.

- `Asking`: a computation that asks for identifiers, and goes on with the answers;
- `lowering`: a run as such a computation;
- `lowering_answered`: if the questions are answered from a cache one after the other, this is the run;
- `lowering_holds`: all questions are about programs with plain keys, if the answers are right.
-/

namespace DefaultLowering

/-! ## Section 1: Questions and answers -/

/-- A computation that asks for the identifiers of methods. -/
inductive Asking (α : Type) where
  | done (a : α)
  | ask (p : Program) (m : MethodRef) (next : String → Asking α)

namespace Asking

variable {α β : Type}

/-- Goes on with the result. -/
def bind (x : Asking α) (f : α → Asking β) : Asking β :=
  match x with
  | done a => f a
  | ask p m next => ask p m fun ident => (next ident).bind f

instance : Monad Asking where
  pure := done
  bind := bind

/-- The computation with all questions answered from a cache, one after the other. -/
def answered : Asking α → NameCache → α × NameCache
  | done a, c => (a, c)
  | ask p m next, c => (next (c.identOf p m).1).answered (c.identOf p m).2

/-- How many questions there are when each method is given its own identifier. -/
def questions : Asking α → Nat
  | done _ => 0
  | ask p m next => (next (p.memberIdent m)).questions + 1

/-- All questions are about programs with plain keys then, and the result is as described. -/
def Holds (Q : α → Prop) : Asking α → Prop
  | done a => Q a
  | ask p m next => p.PlainKeys ∧ (next (p.memberIdent m)).Holds Q

theorem answered_bind (x : Asking α) (f : α → Asking β) (c : NameCache) :
    (x >>= f).answered c = (f (x.answered c).1).answered (x.answered c).2 := by
  change (x.bind f).answered c = _
  induction x generalizing c with
  | done => rfl
  | ask p m next ih => exact ih _ _

theorem Holds.bind {P : α → Prop} {Q : β → Prop} {x : Asking α} {f : α → Asking β}
    (hx : x.Holds P) (hf : ∀ a, P a → (f a).Holds Q) : (x >>= f).Holds Q := by
  change (x.bind f).Holds Q
  induction x with
  | done a => exact hf a hx
  | ask p m next ih => exact ⟨hx.1, ih _ hx.2⟩

end Asking

/-! ## Section 2: States without their cache -/

/-- Something that carries a cache along, and can be without it. -/
class CarriesCache (σ : Type) where
  cache : σ → NameCache
  /-- The same with an empty cache. -/
  blank : σ → σ

export CarriesCache (blank)

namespace Program

instance : CarriesCache (WalkState Retargeting) where
  cache s := s.user.cache
  blank s := { s with user := { s.user with cache := {} } }

instance : CarriesCache (Walked Retargeting) where
  cache w := w.user.cache
  blank w := { w with user := { w.user with cache := {} } }

instance : CarriesCache (Round Retargeting) where
  cache r := r.walked.user.cache
  blank r := { r with walked := blank r.walked }

@[simp] theorem program_blank (s : WalkState Retargeting) : (blank s).program = s.program := rfl

@[simp] theorem owner_blank (s : WalkState Retargeting) : (blank s).owner = s.owner := rfl

@[simp] theorem fault_blank (s : WalkState Retargeting) : (blank s).fault = s.fault := rfl

@[simp] theorem moved_blank (s : WalkState Retargeting) : (blank s).moved = s.moved := rfl

@[simp] theorem walked_program_blank (w : Walked Retargeting) :
    (blank w).program = w.program := rfl

@[simp] theorem walked_fault_blank (w : Walked Retargeting) : (blank w).fault = w.fault := rfl

@[simp] theorem walked_blank (r : Round Retargeting) : (blank r).walked = blank r.walked := rfl

@[simp] theorem seen_blank (r : Round Retargeting) : (blank r).seen = r.seen := rfl

end Program

instance {α σ : Type} [CarriesCache σ] : CarriesCache (α × σ) where
  cache x := CarriesCache.cache x.2
  blank x := (x.1, blank x.2)

/-- Answered from the cache `c`, the computation ends with what `y` is without its cache, and leaves
    the cache of `y`. -/
def Asking.Leaves {σ : Type} [CarriesCache σ] (x : Asking σ) (c : NameCache) (y : σ) : Prop :=
  x.answered c = (blank y, CarriesCache.cache y)

theorem Asking.Leaves.bind {σ τ : Type} [CarriesCache σ] [CarriesCache τ] {x : Asking σ}
    {f : σ → Asking τ} {c : NameCache} {y : σ} {z : τ} (hx : x.Leaves c y)
    (hf : (f (blank y)).Leaves (CarriesCache.cache y) z) : (x >>= f).Leaves c z := by
  unfold Asking.Leaves at *
  rw [Asking.answered_bind, hx]
  exact hf

namespace Program

/-! ## Section 3: Steps that ask nothing -/

/-- From the state `s` on, `x` leaves the cache alone and keeps keys plain, and `x'` does without the
    cache what `x` does. -/
structure QuietFrom {α : Type} (s : WalkState Retargeting) (x' x : Walk Retargeting α) : Prop where
  blind : x'.run (blank s) = ((x.run s).1, blank (x.run s).2)
  kept : (x.run s).2.user.cache = s.user.cache
  plain : s.program.PlainKeys → (x.run s).2.program.PlainKeys

/-- The step neither reads the cache nor changes it, and keeps keys plain. -/
def Quiet {α : Type} (x : Walk Retargeting α) : Prop := ∀ s, QuietFrom s x x

namespace QuietFrom

variable {α β : Type} {s t : WalkState Retargeting}

theorem pure (a : α) : QuietFrom s (Pure.pure a) (Pure.pure a) :=
  ⟨rfl, rfl, fun h => h⟩

theorem bind {x' x : Walk Retargeting α} {f' f : α → Walk Retargeting β} (hx : QuietFrom s x' x)
    (hf : ∀ a t, QuietFrom t (f' a) (f a)) : QuietFrom s (x' >>= f') (x >>= f) := by
  have hrest := hf (x.run s).1 (x.run s).2
  refine ⟨?_, hrest.kept.trans hx.kept, fun h => hrest.plain (hx.plain h)⟩
  -- without the cache, `f'` goes on where `f` does
  change (f' (x'.run (blank s)).1).run (x'.run (blank s)).2 = _
  rw [hx.blind]
  exact hrest.blind

theorem bind_get {f : WalkState Retargeting → Walk Retargeting α}
    (h : QuietFrom s (f (blank s)) (f s)) : QuietFrom s (get >>= f) (get >>= f) :=
  ⟨h.blind, h.kept, h.plain⟩

/-- The state is set to one with the same cache. -/
theorem bind_set {f' f : PUnit → Walk Retargeting α} (hcache : t.user.cache = s.user.cache)
    (hplain : s.program.PlainKeys → t.program.PlainKeys) (hf : QuietFrom t (f' ⟨⟩) (f ⟨⟩)) :
    QuietFrom s (set (blank t) >>= f') (set t >>= f) :=
  ⟨hf.blind, hf.kept.trans hcache, fun h => hf.plain (hplain h)⟩

end QuietFrom

namespace Quiet

variable {α β : Type}

theorem pure (a : α) : Quiet (Pure.pure a : Walk Retargeting α) := fun _ => .pure a

theorem bind {x : Walk Retargeting α} {f : α → Walk Retargeting β} (hx : Quiet x)
    (hf : ∀ a, Quiet (f a)) : Quiet (x >>= f) :=
  fun s => (hx s).bind hf

/-- A step that reads nothing but what stays without the cache. -/
theorem read {f : WalkState Retargeting → Walk Retargeting α} (hblank : ∀ s, f (blank s) = f s)
    (hf : ∀ s, Quiet (f s)) : Quiet (get >>= f) := by
  intro s
  apply QuietFrom.bind_get
  rw [hblank]
  exact hf s s

/-- A change of the state that keeps program and cache. -/
theorem change {f : WalkState Retargeting → WalkState Retargeting}
    (hblank : ∀ s, f (blank s) = blank (f s)) (hcache : ∀ s, (f s).user.cache = s.user.cache)
    (hprogram : ∀ s, (f s).program = s.program) :
    Quiet (modify f : Walk Retargeting Unit) := by
  intro s
  refine ⟨congrArg (Prod.mk ()) (hblank s), hcache s, fun hs => ?_⟩
  change (f s).program.PlainKeys
  rw [hprogram]
  exact hs

theorem halted : Quiet Walk.halted :=
  read (fun _ => rfl) fun _ => pure _

theorem halt (f : Fault) : Quiet (Walk.halt f) :=
  change (fun _ => rfl) (fun _ => rfl) fun _ => rfl

theorem move (r : Relocation) : Quiet (Walk.move r) :=
  change (fun _ => rfl) (fun _ => rfl) fun _ => rfl

theorem holding (relocate : Relocation → α → α) (x : α) {rest : Walk Retargeting β}
    (h : Quiet rest) : Quiet (Walk.holding relocate x rest) := by
  apply read (fun _ => rfl)
  intro s
  apply h.bind
  intro y
  apply read (fun _ => rfl)
  intro s'
  split
  · exact pure _
  · exact pure _

theorem seen (x : Expr) : Quiet (Walk.seen x) := by
  apply read (fun _ => rfl)
  intro s
  split
  · exact pure _
  · exact pure _

/-- The request for a twin. -/
theorem twinFor (m : MethodRef) : Quiet (Program.twinFor m) := by
  intro s
  apply QuietFrom.bind_get
  -- the request depends on the program only, and whatever comes of it has plain keys
  have hplain : s.program.PlainKeys → _ := fun h => h.requestTwin m
  simp only [program_blank, owner_blank]
  cases hrequest : s.program.requestTwin m with
  | known => exact .pure _
  | made twin p relocation =>
    rw [hrequest] at hplain
    refine .bind_set (t := { s with
      program := p, user := { s.user with twinLog := ⟨s.user.twinLog.made ++ [twin]⟩ } }) rfl hplain ?_
    split
    · have howner : Quiet (modify fun s => { s with owner := twin }) :=
        change (fun _ => rfl) (fun _ => rfl) fun _ => rfl
      exact .bind (move relocation _) fun _ t => .bind (howner t) fun _ _ => .pure _
    · exact .pure _
  | failed fault p =>
    rw [hrequest] at hplain
    refine .bind_set (t := { s with program := p }) rfl hplain ?_
    refine .bind (halt fault _) fun _ t => ?_
    split
    · split
      · exact .bind (move _ t) fun _ t => .pure _
      · exact .bind (.pure _) fun _ t => .pure _
    · exact .pure _

theorem retargetCall (method : Option MethodRef) (pos : Pos) (receiver : Expr) (target : MethodRef)
    (args : List Expr) : Quiet (Program.retargetCall method pos receiver target args) := by
  apply (holding _ _ (twinFor target)).bind
  rintro ⟨⟨receiver, args⟩, twin⟩
  cases twin with
  | none => exact pure _
  | some =>
    intro s
    apply QuietFrom.bind_get
    exact .bind_set (t := { s with user := { s.user with
      counts := { s.user.counts with calls := s.user.counts.calls + 1 } } }) rfl (fun h => h)
      (.pure _)

/-- Nothing but a fragment is asked about. -/
theorem retarget (method : Option MethodRef) {n : Node}
    (h : ∀ pos func refs, n ≠ .body (.native pos func refs)) :
    Quiet (Program.retarget method n) := by
  unfold Program.retarget
  split
  · apply read (fun _ => rfl)
    intro s
    split
    · exact retargetCall _ _ _ _ _
    · exact pure _
  · exact absurd rfl (h _ _ _)
  · exact pure _

variable {leave : Node → Walk Retargeting Node}

/-- What is done to a node unless the walk has been halted. -/
theorem unlessHalted {x : α} {n : Node} {f : Node → Walk Retargeting α} (hn : Quiet (leave n))
    (hf : ∀ n', Quiet (f n')) :
    Quiet (Walk.halted >>= fun stopped => if stopped then Pure.pure x else leave n >>= f) := by
  apply halted.bind
  intro stopped
  split
  · exact pure _
  · exact hn.bind hf

theorem leaveExpr {x : Expr} (h : Quiet (leave (.expr x))) : Quiet (Program.leaveExpr leave x) := by
  apply unlessHalted h
  intro n
  split
  · exact pure _
  · exact (halt _).bind fun _ => pure _

theorem leaveStmt {x : Stmt} (h : Quiet (leave (.stmt x))) : Quiet (Program.leaveStmt leave x) := by
  apply unlessHalted h
  intro n
  split
  · exact pure _
  · exact (halt _).bind fun _ => pure _

theorem leaveBody {x : Body} (h : Quiet (leave (.body x))) : Quiet (Program.leaveBody leave x) := by
  apply unlessHalted h
  intro n
  split
  · exact pure _
  · exact (halt _).bind fun _ => pure _

mutual

theorem walkExpr (h : ∀ x, Quiet (leave (.expr x))) (x : Expr) :
    Quiet (Program.walkExpr leave x) := by
  cases x with
  | absent => exact pure _
  | call pos receiver target args =>
    apply (walkExpr h receiver).bind
    intro receiver'
    apply (holding _ _ (walkExprs h args)).bind
    intro y
    exact leaveExpr (h _)
  | _ => exact (seen _).bind fun _ => leaveExpr (h _)

theorem walkExprs (h : ∀ x, Quiet (leave (.expr x))) (xs : List Expr) :
    Quiet (Program.walkExprs leave xs) := by
  cases xs with
  | nil => exact pure _
  | cons x xs =>
    apply (walkExpr h x).bind
    intro x'
    apply (holding _ _ (walkExprs h xs)).bind
    intro y
    exact pure _

end

mutual

theorem walkStmt (hx : ∀ x, Quiet (leave (.expr x))) (hs : ∀ s, Quiet (leave (.stmt s))) (s : Stmt) :
    Quiet (Program.walkStmt leave s) := by
  cases s with
  | absent =>
    have hahead : Quiet (modify fun s => { s with ahead := none }) :=
      change (fun _ => rfl) (fun _ => rfl) fun _ => rfl
    exact (halt _).bind fun _ => hahead.bind fun _ => pure _
  | block pos ss => exact (walkStmts hx hs ss).bind fun _ => leaveStmt (hs _)
  | ret pos x => exact (walkExpr hx x).bind fun _ => leaveStmt (hs _)
  | expr pos x => exact (walkExpr hx x).bind fun _ => leaveStmt (hs _)
  | «local» pos v init => exact (walkExpr hx init).bind fun _ => leaveStmt (hs _)

theorem walkStmts (hx : ∀ x, Quiet (leave (.expr x))) (hs : ∀ s, Quiet (leave (.stmt s)))
    (ss : List Stmt) : Quiet (Program.walkStmts leave ss) := by
  cases ss with
  | nil => exact pure _
  | cons s ss =>
    apply (walkStmt hx hs s).bind
    intro s'
    apply (holding _ _ (walkStmts hx hs ss)).bind
    intro y
    exact pure _

end

/-- Nothing is asked about a typed body. -/
theorem walkCode (method : Option MethodRef) (pos : Pos) (block : Option Block) :
    Quiet (Program.walkBody (Program.retarget method) (.code pos block)) := by
  have hbody : ∀ block, Quiet (Program.leaveBody (Program.retarget method) (.code pos block)) :=
    fun block => leaveBody (retarget method fun _ _ _ => nofun)
  cases block with
  | none => exact hbody none
  | some block =>
    apply (walkStmts (fun x => retarget method fun _ _ _ => nofun)
      (fun s => retarget method fun _ _ _ => nofun) block.stmts).bind
    intro stmts
    apply (leaveStmt (retarget method fun _ _ _ => nofun)).bind
    intro s
    split
    · exact hbody _
    · exact (halt _).bind fun _ => pure _

end Quiet

/-! ## Section 4: Fragments, question by question -/

/-- A walk that asks. -/
abbrev AskingWalk (α : Type) : Type :=
  WalkState Retargeting → Asking (α × WalkState Retargeting)

/-- Turns the linkage over, and asks for the identifiers of the twins. -/
def askLinkage : (done : List Linkage) → (renames : Renames) → List Linkage →
    AskingWalk (List Linkage × Renames)
  | done, renames, [], s => .done ((done, renames), s)
  | done, renames, r :: rest, s =>
    if s.fault.isSome then .done ((done ++ r :: rest, renames), s)
    else
      match r.target with
      | none => askLinkage (done ++ [r]) renames rest s
      | some target =>
        if !s.program.isDefault target then askLinkage (done ++ [r]) renames rest s
        else
          match (twinFor target).run s with
          | (none, s) => .done ((done ++ r :: rest, renames), s)
          | (some twin, s) =>
            -- the only place in a walk where the cache is used
            .ask s.program twin fun ident =>
              askLinkage (done ++ [{ r with ident := ident, target := some twin }])
                (renames ++ [(r.ident, ident)]) rest s

/-- What is done to a fragment when its linkage has been turned over. -/
def renameFragment (pos : Pos) :
    Option Fragment.Function × List Linkage × Renames → Walk Retargeting Node
  | (func, refs, renames) => do
    if ← Walk.halted then return .body (.native pos func refs)
    if renames.isEmpty then return .body (.native pos func refs)
    let refs := distinctLinkage refs
    match func with
    | none => return .body (.native pos none refs)
    | some f =>
      let s ← get
      let renamed := f.rename renames s.program.globals
      let f := match renamed.node with
        | .function g => g
        | _ => f
      let program := { s.program with globals := renamed.scopes.headD [] }
      match renamed.fault with
      | some fault =>
        set { s with program := program }
        Walk.halt fault
      | none =>
        let counts := s.user.counts
        set { s with
          program := program
          user := { s.user with counts := { counts with
            references := counts.references + renamed.user.references
            invocations := counts.invocations + renamed.user.invocations
            fragments := counts.fragments + 1 } } }
      return .body (.native pos (some f) refs)

theorem retargetFragment_eq (pos : Pos) (func : Option Fragment.Function) (refs : List Linkage) :
    retargetFragment pos func refs =
      Walk.holding (fun _ => Option.map Fragment.Function.withReceiver) func
        (retargetLinkage [] [] refs) >>= renameFragment pos := rfl

/-- Answered from the cache of the state `s`, the computation `y` ends as the walk `x` does. -/
def AsksFrom {α : Type} (s : WalkState Retargeting) (x : Walk Retargeting α)
    (y : Asking (α × WalkState Retargeting)) : Prop :=
  Asking.Leaves (σ := α × WalkState Retargeting) y s.user.cache (x.run s)

/-- Begun without a cache, the walk `y` asks for what the walk `x` takes from its cache. -/
def Asks {α : Type} (x : Walk Retargeting α) (y : AskingWalk α) : Prop :=
  ∀ s, AsksFrom s x (y (blank s))

section

variable {α β : Type} {s : WalkState Retargeting}

theorem AsksFrom.pure (a : α) : AsksFrom s (Pure.pure a) (.done (a, blank s)) := rfl

theorem AsksFrom.bind {x : Walk Retargeting α} {y : Asking (α × WalkState Retargeting)}
    {f : α → Walk Retargeting β} {g : α → AskingWalk β} (hx : AsksFrom s x y)
    (hf : ∀ a, Asks (f a) (g a)) : AsksFrom s (x >>= f) (y >>= fun r => g r.1 r.2) :=
  Asking.Leaves.bind (σ := α × WalkState Retargeting) (τ := β × WalkState Retargeting) hx (hf _ _)

theorem AsksFrom.bind_get {f : WalkState Retargeting → Walk Retargeting α}
    {y : Asking (α × WalkState Retargeting)} (h : AsksFrom s (f s) y) :
    AsksFrom s (get >>= f) y := h

theorem AsksFrom.bind_halted {f : Bool → Walk Retargeting α}
    {y : Asking (α × WalkState Retargeting)} (h : AsksFrom s (f s.fault.isSome) y) :
    AsksFrom s (Walk.halted >>= f) y := h

/-- A step that asks nothing is taken. -/
theorem AsksFrom.bind_quiet {x : Walk Retargeting α} {f : α → Walk Retargeting β}
    {y : Asking (β × WalkState Retargeting)} (hx : Quiet x)
    (hf : AsksFrom (x.run s).2 (f (x.run s).1) y) : AsksFrom s (x >>= f) y := by
  unfold AsksFrom at hf
  rw [(hx s).kept] at hf
  exact hf

theorem Quiet.asks {x : Walk Retargeting α} (h : Quiet x) : Asks x fun s => .done (x.run s) := by
  intro s
  exact Prod.ext (h s).blind (h s).kept.symm

end

theorem asks_askLinkage (refs done : List Linkage) (renames : Renames) :
    Asks (retargetLinkage done renames refs) (askLinkage done renames refs) := by
  induction refs generalizing done renames with
  | nil => exact fun s => .pure _
  | cons r rest ih =>
    intro s
    rw [retargetLinkage, askLinkage, fault_blank, program_blank]
    apply AsksFrom.bind_halted
    by_cases hfault : s.fault.isSome = true
    · rw [if_pos hfault, if_pos hfault]
      exact .pure _
    rw [if_neg hfault, if_neg hfault]
    cases htarget : r.target with
    | none => exact ih _ _ s
    | some target =>
      dsimp only
      apply AsksFrom.bind_get
      by_cases hdefault : (!s.program.isDefault target) = true
      · rw [if_pos hdefault, if_pos hdefault]
        exact ih _ _ s
      rw [if_neg hdefault, if_neg hdefault, (Quiet.twinFor target s).blind]
      apply AsksFrom.bind_quiet (Quiet.twinFor target)
      generalize (twinFor target).run s = found
      obtain ⟨_ | twin, t⟩ := found
      · exact .pure _
      · -- the answer comes from the cache, and the state goes on with what the cache is then
        exact ih _ _ { t with user := { t.user with
          cache := (t.user.cache.identOf t.program twin).2 } }

/-- What is held while a walk goes on, relocated if the walk has moved the tree. -/
def heldAs {α : Type} (relocate : Relocation → α → α) (x : α) :
    (before after : Option Relocation) → α
  | none, some r => relocate r x
  | _, _ => x

/-- Goes on with `rest` while `x` is held. -/
def askHolding {α β : Type} (relocate : Relocation → α → α) (x : α) (rest : AskingWalk β) :
    AskingWalk (α × β) :=
  fun s => rest s >>= fun r => .done ((heldAs relocate x s.moved r.2.moved, r.1), r.2)

/-- Retargets a fragment, and asks for the identifiers of the twins. -/
def askFragment (pos : Pos) (func : Option Fragment.Function) (refs : List Linkage) :
    AskingWalk Node :=
  fun s =>
    askHolding (fun _ => Option.map Fragment.Function.withReceiver) func (askLinkage [] [] refs) s
      >>= fun r => .done ((renameFragment pos r.1).run r.2)

/-- The body that comes back from the visitor. -/
def takeBody (old : Body) : Node → Walk Retargeting Body
  | .body b => return b
  | _ => do
    Walk.halt .notABlock
    return old

/-- Walks the body of a method.  Only fragments are asked about. -/
def askBody (m : MethodRef) : Body → AskingWalk Body
  | .code pos block, s => .done ((walkBody (retarget (some m)) (.code pos block)).run s)
  | .native pos func refs, s =>
    if s.fault.isSome then .done (.native pos func refs, s)
    else
      askFragment pos func refs s
        >>= fun r => .done ((takeBody (.native pos func refs) r.1).run r.2)

theorem asks_askHolding {α β : Type} (relocate : Relocation → α → α) (x : α)
    {rest' : Walk Retargeting β} {rest : AskingWalk β} (h : Asks rest' rest) :
    Asks (Walk.holding relocate x rest') (askHolding relocate x rest) := by
  intro s
  apply AsksFrom.bind_get
  refine AsksFrom.bind
    (g := fun y t => .done ((heldAs relocate x s.moved t.moved, y), t)) (h s) ?_
  intro y t
  apply AsksFrom.bind_get
  -- whether the tree has moved is told without the cache
  beta_reduce
  rw [moved_blank]
  cases s.moved <;> cases t.moved <;> exact .pure _

theorem quiet_renameFragment (pos : Pos)
    (x : Option Fragment.Function × List Linkage × Renames) :
    Quiet (renameFragment pos x) := by
  obtain ⟨func, refs, renames⟩ := x
  apply Quiet.halted.bind
  intro stopped
  split
  · exact .pure _
  split
  · exact .pure _
  cases func with
  | none => exact .pure _
  | some f =>
    intro s
    apply QuietFrom.bind_get
    simp only [program_blank]
    generalize f.rename renames s.program.globals = renamed
    have hplain (h : s.program.PlainKeys) :
        { s.program with globals := renamed.scopes.headD [] }.PlainKeys := h.congr rfl rfl
    cases renamed.fault with
    | some fault =>
      exact .bind_set (t := { s with
        program := { s.program with globals := renamed.scopes.headD [] } }) rfl hplain
        (.bind (Quiet.halt fault _) fun _ _ => .pure _)
    | none =>
      exact .bind_set (t := { s with
        program := { s.program with globals := renamed.scopes.headD [] }
        user := { s.user with counts := { s.user.counts with
          references := s.user.counts.references + renamed.user.references
          invocations := s.user.counts.invocations + renamed.user.invocations
          fragments := s.user.counts.fragments + 1 } } }) rfl hplain (.pure _)

theorem asks_askFragment (pos : Pos) (func : Option Fragment.Function) (refs : List Linkage) :
    Asks (retargetFragment pos func refs) (askFragment pos func refs) := by
  rw [retargetFragment_eq]
  intro s
  exact (asks_askHolding _ func (asks_askLinkage refs [] []) s).bind fun x =>
    (quiet_renameFragment pos x).asks

theorem quiet_takeBody (old : Body) (n : Node) : Quiet (takeBody old n) := by
  unfold takeBody
  split
  · exact .pure _
  · exact (Quiet.halt _).bind fun _ => .pure _

theorem asks_askBody (m : MethodRef) (b : Body) :
    Asks (walkBody (retarget (some m)) b) (askBody m b) := by
  cases b with
  | code pos block => exact (Quiet.walkCode (some m) pos block).asks
  | native pos func refs =>
    intro s
    rw [walkBody, askBody, fault_blank]
    apply AsksFrom.bind_halted
    by_cases hfault : s.fault.isSome = true
    · rw [if_pos hfault, if_pos hfault]
      exact .pure _
    rw [if_neg hfault, if_neg hfault]
    exact (asks_askFragment pos func refs s).bind fun n => (quiet_takeBody _ n).asks

/-! ## Section 5: Methods and rounds, question by question -/

/-- Puts a body back where it belongs by then. -/
def putBack (r : Body × WalkState Retargeting) : Walked Retargeting :=
  { program := r.2.program.setBody r.2.owner (some r.1), user := r.2.user, fault := r.2.fault }

/-- Walks the body of a method. -/
def askMethod (m : MethodRef) (w : Walked Retargeting) : Asking (Walked Retargeting) :=
  match (w.program.method m).body with
  | none => .done w
  | some body =>
    askBody m body { program := w.program, user := w.user, owner := m }
      >>= fun r => .done (putBack r)

/-- Takes up a method unless that has been done. -/
def askTakeUp (m : MethodRef) (r : Round Retargeting) : Asking (Round Retargeting) :=
  if m ∈ r.seen then .done r
  else askMethod m r.walked >>= fun w => .done ⟨w, m :: r.seen⟩

/-- Takes up the methods of a type from the index `i` on. -/
def askType (t : TypeRef) : (fuel : Nat) → (i : Nat) → Round Retargeting → Asking (Round Retargeting)
  | 0, _, r => .done { r with walked := { r.walked with fault := r.walked.fault <|> some .unbounded } }
  | fuel + 1, i, r =>
    if r.walked.fault.isSome then .done r
    else
      match (r.walked.program.type t).methods[i]? with
      | none => .done r
      | some m => askTakeUp m r >>= askType t fuel (i + 1)

/-- Goes through some types. -/
def askTypes (bound : Nat) : List TypeRef → Round Retargeting → Asking (Round Retargeting)
  | [], r => .done r
  | t :: ts, r => askType t bound 0 r >>= askTypes bound ts

/-- Goes through all types again and again until a round finds no new method. -/
def askRounds (bound : Nat) : (fuel : Nat) → Round Retargeting → Asking (Round Retargeting)
  | 0, r => .done { r with walked := { r.walked with fault := r.walked.fault <|> some .unbounded } }
  | fuel + 1, r =>
    askTypes bound r.walked.program.declared r >>= fun next =>
      if next.walked.fault.isSome || next.seen.length = r.seen.length then .done next
      else askRounds bound fuel next

/-- Begun without a cache, `g` asks for what `f` takes from its cache. -/
def AsksAlong {σ : Type} [CarriesCache σ] (f : σ → σ) (g : σ → Asking σ) : Prop :=
  ∀ y, (g (blank y)).Leaves (CarriesCache.cache y) (f y)

theorem asksAlong_askMethod (m : MethodRef) :
    AsksAlong (walkMethod (retarget (some m)) m) (askMethod m) := by
  intro w
  rw [askMethod, walkMethod, walked_program_blank]
  cases (w.program.method m).body with
  | none => exact rfl
  | some body =>
    exact Asking.Leaves.bind (σ := Body × WalkState Retargeting)
      (asks_askBody m body { program := w.program, user := w.user, owner := m }) rfl

theorem asksAlong_askTakeUp (m : MethodRef) :
    AsksAlong (takeUp (fun m => retarget (some m)) m) (askTakeUp m) := by
  intro r
  rw [askTakeUp, takeUp, seen_blank]
  split
  · exact rfl
  · exact (asksAlong_askMethod m r.walked).bind rfl

theorem asksAlong_askType (t : TypeRef) (fuel i : Nat) :
    AsksAlong (walkType (fun m => retarget (some m)) t fuel i) (askType t fuel i) := by
  induction fuel generalizing i with
  | zero => exact fun r => rfl
  | succ fuel ih =>
    intro r
    rw [askType, walkType, walked_blank, walked_fault_blank, walked_program_blank]
    split
    · exact rfl
    cases (r.walked.program.type t).methods[i]? with
    | none => exact rfl
    | some m => exact (asksAlong_askTakeUp m r).bind (ih (i + 1) _)

theorem asksAlong_askTypes (bound : Nat) (ts : List TypeRef) :
    AsksAlong (fun r => ts.foldl (fun r t => walkType (fun m => retarget (some m)) t bound 0 r) r)
      (askTypes bound ts) := by
  induction ts with
  | nil => exact fun r => rfl
  | cons t ts ih => exact fun r => (asksAlong_askType t bound 0 r).bind (ih _)

theorem asksAlong_askRounds (bound fuel : Nat) :
    AsksAlong (walkRounds (fun m => retarget (some m)) bound fuel) (askRounds bound fuel) := by
  induction fuel with
  | zero => exact fun r => rfl
  | succ fuel ih =>
    intro r
    apply (asksAlong_askTypes bound r.walked.program.declared r).bind
    rw [walkRounds, walked_blank, walked_fault_blank, seen_blank, seen_blank]
    split
    · exact rfl
    · exact ih _

/-! ## Section 6: Questions about programs with plain keys -/

/-- Begun with plain keys, the walk asks about nothing else and ends with plain keys. -/
def KeepsPlain {α : Type} (y : AskingWalk α) : Prop :=
  ∀ s, s.program.PlainKeys → (y s).Holds fun r => r.2.program.PlainKeys

theorem Quiet.keepsPlain {α : Type} {x : Walk Retargeting α} (h : Quiet x) :
    KeepsPlain fun s => .done (x.run s) :=
  fun s hs => (h s).plain hs

theorem KeepsPlain.bind {α β : Type} {y : AskingWalk α} {g : α → AskingWalk β} (hy : KeepsPlain y)
    (hg : ∀ a, KeepsPlain (g a)) : KeepsPlain fun s => y s >>= fun r => g r.1 r.2 :=
  fun s hs => (hy s hs).bind fun r hr => hg r.1 r.2 hr

theorem keepsPlain_askLinkage (refs done : List Linkage) (renames : Renames) :
    KeepsPlain (askLinkage done renames refs) := by
  induction refs generalizing done renames with
  | nil => exact fun s hs => hs
  | cons r rest ih =>
    intro s hs
    rw [askLinkage]
    split
    · exact hs
    cases r.target with
    | none => exact ih _ _ s hs
    | some target =>
      dsimp only
      split
      · exact ih _ _ s hs
      have htwin := (Quiet.twinFor target s).plain hs
      generalize (twinFor target).run s = found at htwin ⊢
      obtain ⟨_ | twin, t⟩ := found
      · exact htwin
      · exact ⟨htwin, ih _ _ t htwin⟩

theorem keepsPlain_askFragment (pos : Pos) (func : Option Fragment.Function)
    (refs : List Linkage) : KeepsPlain (askFragment pos func refs) := by
  have hheld : KeepsPlain (askHolding (fun _ => Option.map Fragment.Function.withReceiver) func
      (askLinkage [] [] refs)) :=
    fun s hs => (keepsPlain_askLinkage refs [] [] s hs).bind fun r hr => hr
  exact hheld.bind fun x => (quiet_renameFragment pos x).keepsPlain

theorem keepsPlain_askBody (m : MethodRef) (b : Body) : KeepsPlain (askBody m b) := by
  intro s hs
  cases b with
  | code pos block => exact (Quiet.walkCode (some m) pos block).keepsPlain s hs
  | native pos func refs =>
    rw [askBody]
    split
    · exact hs
    · exact (keepsPlain_askFragment pos func refs).bind
        (fun n => (quiet_takeBody _ n).keepsPlain) s hs

/-- Begun with plain keys, this part of a traversal asks about nothing else and ends with plain
    keys. -/
def KeepsPlainAlong (g : Round Retargeting → Asking (Round Retargeting)) : Prop :=
  ∀ r, r.walked.program.PlainKeys → (g r).Holds fun r => r.walked.program.PlainKeys

theorem keepsPlainAlong_askTakeUp (m : MethodRef) : KeepsPlainAlong (askTakeUp m) := by
  intro r hr
  rw [askTakeUp]
  split
  · exact hr
  refine .bind (P := fun w => w.program.PlainKeys) ?_ fun w hw => hw
  rw [askMethod]
  split
  · exact hr
  · exact .bind (keepsPlain_askBody m _ _ hr) fun r hr => hr.setBody _ _

theorem keepsPlainAlong_askType (t : TypeRef) (fuel i : Nat) :
    KeepsPlainAlong (askType t fuel i) := by
  induction fuel generalizing i with
  | zero => exact fun r hr => hr
  | succ fuel ih =>
    intro r hr
    rw [askType]
    split
    · exact hr
    split
    · exact hr
    · exact (keepsPlainAlong_askTakeUp _ r hr).bind (ih (i + 1))

theorem keepsPlainAlong_askTypes (bound : Nat) (ts : List TypeRef) :
    KeepsPlainAlong (askTypes bound ts) := by
  induction ts with
  | nil => exact fun r hr => hr
  | cons t ts ih => exact fun r hr => (keepsPlainAlong_askType t bound 0 r hr).bind ih

theorem keepsPlainAlong_askRounds (bound fuel : Nat) : KeepsPlainAlong (askRounds bound fuel) := by
  induction fuel with
  | zero => exact fun r hr => hr
  | succ fuel ih =>
    intro r hr
    apply (keepsPlainAlong_askTypes bound _ r hr).bind
    intro next hnext
    split
    · exact hnext
    · exact ih next hnext

end Program

/-! ## Section 7: Runs, question by question -/

/-- What a run leaves but for the cache. -/
structure Report where
  program : Program
  summary : Option Summary
  error : Option RunError

def Run.report (r : Run) : Report := ⟨r.program, r.summary, r.error⟩

namespace Program

/-- Retargets the bodies of all methods. -/
def askAll (p : Program) (log : TwinLog) : Asking (Walked Retargeting) :=
  let start : Walked Retargeting := { program := p, user := { twinLog := log, cache := {} } }
  askRounds (walkBound p) (walkBound p) ⟨start, []⟩ >>= fun r => .done r.walked

/-- What lowering leaves but for the cache. -/
def lowerOutcome (forwarders : List MethodRef) (w : Walked Retargeting) :
    Program × Except Fault Summary :=
  match w.fault with
  | some fault => (w.program, .error fault)
  | none =>
    (w.program, .ok { twins := w.user.twinLog.made, forwarders, counts := w.user.counts })

/-- Lowers a program. -/
def askLower (p : Program) : Asking (Program × Except Fault Summary) :=
  let forwarded := Forwarding.run p {}
  match forwarded.fault with
  | some fault => .done (forwarded.program, .error fault)
  | none =>
    forwarded.program.askAll forwarded.twinLog
      >>= fun w => .done (lowerOutcome forwarded.forwarders w)

/-- Adds the identifiers of methods to an index. -/
def askIndex (p : Program) :
    List MethodRef → MemberIndex → Asking MemberIndex
  | [], index => .done index
  | m :: ms, index =>
    .ask p m fun ident =>
      askIndex p ms (if (index.lookup ident).isSome then index else index ++ [(ident, m)])

/-- What the check of a run says. -/
def checkedReport (p : Program) (summary : Summary) (index : MemberIndex) : Report :=
  let defaults := index.filter fun entry => p.isDefault entry.2
  match p.declared.flatMap (p.typeProblems defaults) with
  | [] => ⟨p, some summary, none⟩
  | problems => ⟨p, some summary, some (.unverified problems)⟩

/-- Goes on with a run when the program is lowered. -/
def askReport (check : Bool) : Program × Except Fault Summary → Asking Report
  | (p, .error fault) => .done ⟨p, none, some (.fault fault)⟩
  | (p, .ok summary) =>
    if !check then .done ⟨p, some summary, none⟩
    else askIndex p p.declaredMethods [] >>= fun index => .done (p.checkedReport summary index)

/-- Lowers a program, and checks it if asked. -/
def lowering (check : Bool) (p : Program) : Asking Report :=
  p.askLower >>= askReport check

theorem askAll_leaves (p : Program) (log : TwinLog) (c : NameCache) :
    (p.askAll log).Leaves c (p.retargetAll { twinLog := log, cache := c }) :=
  let start : Walked Retargeting := { program := p, user := { twinLog := log, cache := c } }
  (asksAlong_askRounds (walkBound p) (walkBound p) ⟨start, []⟩).bind rfl

theorem askLower_answered (p : Program) (c : NameCache) :
    p.askLower.answered c = (((p.lower c).program, (p.lower c).outcome), (p.lower c).cache) := by
  simp only [askLower, lower]
  cases (Forwarding.run p {}).fault with
  | some => rfl
  | none =>
    dsimp only
    rw [Asking.answered_bind, askAll_leaves]
    generalize (Forwarding.run p {}).program.retargetAll _ = walked
    change (lowerOutcome _ walked, walked.user.cache) = _
    rw [lowerOutcome]
    cases walked.fault with
    | some => rfl
    | none => rfl

theorem askIndex_answered (p : Program) (ms : List MethodRef) (index : MemberIndex)
    (c : NameCache) : (p.askIndex ms index).answered c = NameCache.indexMethods p ms index c := by
  induction ms generalizing index c with
  | nil => rfl
  | cons m ms ih => exact ih _ _

/-- Answered from a cache, the questions give the run and leave its cache. -/
theorem lowering_answered (check : Bool) (p : Program) (c : NameCache) :
    (p.lowering check).answered c = ((p.run check c).report, (p.run check c).cache) := by
  rw [lowering, Asking.answered_bind, askLower_answered]
  simp only [run]
  cases (p.lower c).outcome with
  | error => rfl
  | ok summary =>
    rw [askReport]
    split
    · rfl
    -- the check asks for its index, and does not use the cache after that
    rw [Asking.answered_bind, askIndex_answered]
    simp only [verify, NameCache.index]
    generalize NameCache.indexMethods _ _ _ _ = found
    change (checkedReport _ summary found.1, found.2) = _
    simp only [checkedReport]
    cases (p.lower c).program.declared.flatMap _ with
    | nil => rfl
    | cons => rfl

theorem askIndex_holds {p : Program} (h : p.PlainKeys) (ms : List MethodRef)
    (index : MemberIndex) : (p.askIndex ms index).Holds fun _ => True := by
  induction ms generalizing index with
  | nil => trivial
  | cons m ms ih => exact ⟨h, ih _⟩

theorem askAll_holds {p : Program} (h : p.PlainKeys) (log : TwinLog) :
    (p.askAll log).Holds fun w => w.program.PlainKeys := by
  have hrounds := keepsPlainAlong_askRounds (walkBound p) (walkBound p)
    ⟨{ program := p, user := { twinLog := log, cache := {} } }, []⟩ h
  exact hrounds.bind fun r hr => hr

theorem askLower_holds {p : Program} (h : p.PlainKeys) :
    p.askLower.Holds fun r => r.1.PlainKeys := by
  have hforwarded := h.forwarded {}
  rw [askLower]
  split
  · exact hforwarded
  · apply (askAll_holds hforwarded _).bind
    intro w hw
    unfold lowerOutcome
    split
    · exact hw
    · exact hw

/-- A run on a program with plain keys asks about nothing else. -/
theorem lowering_holds (check : Bool) {p : Program} (h : p.PlainKeys) :
    (p.lowering check).Holds fun _ => True := by
  apply (askLower_holds h).bind
  intro r hr
  unfold askReport
  split
  · trivial
  split
  · trivial
  · exact (askIndex_holds hr _ _).bind fun _ _ => trivial

end Program

end DefaultLowering
