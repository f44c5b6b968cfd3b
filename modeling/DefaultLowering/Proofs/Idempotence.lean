import DefaultLowering.Proofs.Outcome

/-!
# A lowered program stays as it is

Nothing marks a program as lowered: the default methods are still there, with bodies that delegate.
But in a lowered program no method uses a default method, and no class lacks a method, so that neither
the forwarders nor the walk finds anything to do.

- `Walk.Idle`: a walk that leaves its state alone;
- `walkMethod_idle`: so does the walk over a body without default methods;
- `retargetAll_idle`, `run_idle`: the two halves of lowering leave a lowered program alone;
- `lower_idempotent`: a second run changes nothing.
-/

namespace DefaultLowering

namespace Program

/-! ## Section 1: Walks that do nothing -/

/-- The walk ends with the given result and in the state in which it began. -/
def Walk.Idle {σ α : Type} (w : Walk σ α) (x : α) (s : WalkState σ) : Prop := w.run s = (x, s)

namespace Walk.Idle

variable {σ α β : Type} {s : WalkState σ}

theorem pure (x : α) : Idle (pure x) x s := rfl

theorem bind {w : Walk σ α} {f : α → Walk σ β} {x : α} {y : β} (hw : Idle w x s)
    (hf : Idle (f x) y s) : Idle (w >>= f) y s := by
  change (f (w.run s).1).run (w.run s).2 = (y, s)
  rw [hw]
  exact hf

theorem bind_get {f : WalkState σ → Walk σ β} {y : β} (h : Idle (f s) y s) :
    Idle (MonadState.get >>= f) y s := h

theorem halted (hfault : s.fault = none) : Idle Walk.halted false s := by
  change (s.fault.isSome, s) = (false, s)
  rw [hfault]
  rfl

/-- What is held stays as it is. -/
theorem holding {relocate : Relocation → α → α} {x : α} {rest : Walk σ β} {y : β}
    (h : Idle rest y s) : Idle (Walk.holding relocate x rest) (x, y) s := by
  refine .bind_get (.bind h (.bind_get ?_))
  cases s.moved <;> exact .pure _

theorem seen (hahead : s.ahead = none) (x : Expr) : Idle (Walk.seen x) x s := by
  refine .bind_get ?_
  rw [hahead]
  exact .pure x

variable {leave : Node → Walk σ Node} (hfault : s.fault = none)

include hfault

theorem leaveExpr {x : Expr} (h : Idle (leave (.expr x)) (.expr x) s) :
    Idle (leaveExpr leave x) x s :=
  .bind (.halted hfault) (.bind h (.pure x))

theorem leaveStmt {x : Stmt} (h : Idle (leave (.stmt x)) (.stmt x) s) :
    Idle (leaveStmt leave x) x s :=
  .bind (.halted hfault) (.bind h (.pure x))

theorem leaveBody {x : Body} (h : Idle (leave (.body x)) (.body x) s) :
    Idle (leaveBody leave x) x s :=
  .bind (.halted hfault) (.bind h (.pure x))

end Walk.Idle

/-! ## Section 2: Bodies without default methods -/

section

variable {s : WalkState Retargeting} {m : Option MethodRef}

theorem retarget_stmt_idle (x : Stmt) : (retarget m (.stmt x)).Idle (.stmt x) s := rfl

theorem retarget_call_idle {pos : Pos} {receiver : Expr} {target : MethodRef} {args : List Expr}
    (htarget : s.program.isDefault target = false) :
    (retarget m (.expr (.call pos receiver target args))).Idle
      (.expr (.call pos receiver target args)) s := by
  refine .bind_get ?_
  rw [htarget]
  exact .pure _

variable (hfault : s.fault = none) (hahead : s.ahead = none)

include hfault

theorem retargetLinkage_idle {refs done : List Linkage} {renames : Renames}
    (hclean : ∀ d ∈ linkTargets refs, s.program.isDefault d = false) :
    (retargetLinkage done renames refs).Idle (done ++ refs, renames) s := by
  induction refs generalizing done with
  | nil =>
    rw [List.append_nil]
    exact .pure _
  | cons r rest ih =>
    have hrest : ∀ d ∈ linkTargets rest, s.program.isDefault d = false := by
      intro d hd
      obtain ⟨x, hx, htarget⟩ := mem_linkTargets.mp hd
      exact hclean d (mem_linkTargets.mpr ⟨x, List.mem_cons_of_mem _ hx, htarget⟩)
    have hnext : (retargetLinkage (done ++ [r]) renames rest).Idle (done ++ [r] ++ rest, renames) s :=
      ih hrest
    rw [List.append_assoc, List.singleton_append] at hnext
    refine .bind (.halted hfault) ?_
    cases htarget : r.target with
    | none => exact hnext
    | some d =>
      have hd : s.program.isDefault d = false :=
        hclean d (mem_linkTargets.mpr ⟨r, List.mem_cons_self, htarget⟩)
      refine .bind_get ?_
      rw [hd]
      exact hnext

theorem retargetFragment_idle {pos : Pos} {func : Option Fragment.Function} {refs : List Linkage}
    (hclean : ∀ d ∈ linkTargets refs, s.program.isDefault d = false) :
    (retargetFragment pos func refs).Idle (.body (.native pos func refs)) s := by
  refine .bind (.holding (retargetLinkage_idle hfault hclean)) ?_
  exact .bind (.halted hfault) (.pure _)

omit hfault in
theorem walkExprs_idle {xs : List Expr} (h : ∀ x ∈ xs, (walkExpr (retarget m) x).Idle x s) :
    (walkExprs (retarget m) xs).Idle xs s := by
  induction xs with
  | nil => exact .pure _
  | cons x xs ih =>
    rw [List.forall_mem_cons] at h
    exact .bind h.1 (.bind (.holding (ih h.2)) (.pure _))

omit hfault in
theorem walkStmts_idle {ss : List Stmt} (h : ∀ x ∈ ss, (walkStmt (retarget m) x).Idle x s) :
    (walkStmts (retarget m) ss).Idle ss s := by
  induction ss with
  | nil => exact .pure _
  | cons x ss ih =>
    rw [List.forall_mem_cons] at h
    exact .bind h.1 (.bind (.holding (ih h.2)) (.pure _))

include hahead

theorem walkExpr_idle {x : Expr} (hclean : ∀ d ∈ x.targets, s.program.isDefault d = false) :
    (walkExpr (retarget m) x).Idle x s := by
  induction x with
  | absent => exact .pure _
  | call pos receiver target args ihReceiver ihArgs =>
    have htarget := hclean target (mem_targets_call.mpr (.inl rfl))
    have hreceiver := ihReceiver fun d hd => hclean d (mem_targets_call.mpr (.inr (.inl hd)))
    have hargs : (walkExprs (retarget m) args).Idle args s := by
      refine walkExprs_idle fun x hx => ihArgs x hx fun d hd => ?_
      exact hclean d (mem_targets_call.mpr (.inr (.inr ⟨x, hx, hd⟩)))
    refine .bind hreceiver (.bind (.holding hargs) ?_)
    exact .leaveExpr hfault (retarget_call_idle htarget)
  | _ => exact .bind (.seen hahead _) (.leaveExpr hfault (.pure _))

/-- No statement may be absent, for the walk stops there. -/
theorem walkStmt_idle {x : Stmt} (hplaced : x.Placed s.program.isDefault)
    (hclean : ∀ d ∈ x.targets, s.program.isDefault d = false) :
    (walkStmt (retarget m) x).Idle x s := by
  induction x with
  | absent => exact hplaced.elim
  | block pos ss ih =>
    rw [Stmt.Placed, stmtsPlaced_iff] at hplaced
    have hss : (walkStmts (retarget m) ss).Idle ss s := by
      refine walkStmts_idle fun x hx => ih x hx (hplaced x hx) fun d hd => ?_
      exact hclean d (mem_targetsOfStmts.mpr ⟨x, hx, hd⟩)
    exact .bind hss (.leaveStmt hfault (retarget_stmt_idle _))
  | ret =>
    exact .bind (walkExpr_idle hfault hahead hclean) (.leaveStmt hfault (retarget_stmt_idle _))
  | expr =>
    exact .bind (walkExpr_idle hfault hahead hclean) (.leaveStmt hfault (retarget_stmt_idle _))
  | decl =>
    exact .bind (walkExpr_idle hfault hahead hclean) (.leaveStmt hfault (retarget_stmt_idle _))

theorem walkBody_idle {b : Body}
    (hplaced : ∀ pos block, b = .code pos (some block) →
      StmtsPlaced s.program.isDefault block.stmts)
    (hclean : ∀ d ∈ b.targets, s.program.isDefault d = false) :
    (walkBody (retarget m) b).Idle b s := by
  rcases b with ⟨pos, _ | block⟩ | ⟨pos, func, refs⟩
  · exact .leaveBody hfault rfl
  · have hstmts : (walkStmts (retarget m) block.stmts).Idle block.stmts s := by
      have hplaced := stmtsPlaced_iff.mp (hplaced pos block rfl)
      refine walkStmts_idle fun x hx => walkStmt_idle hfault hahead (hplaced x hx) fun d hd => ?_
      exact hclean d (mem_targetsOfStmts.mpr ⟨x, hx, hd⟩)
    refine .bind hstmts (.bind (.leaveStmt hfault (retarget_stmt_idle _)) ?_)
    exact .leaveBody hfault rfl
  · exact .leaveBody hfault (retargetFragment_idle hfault hclean)

end

/-- Walking a method that uses no default method changes nothing. -/
theorem walkMethod_idle {m : MethodRef} {w : Walked Retargeting} (hp : w.program.Coherent)
    (hfault : w.fault = none) (hclean : w.program.Clean m) :
    walkMethod (retarget (some m)) m w = w := by
  unfold walkMethod
  cases hbody : (w.program.method m).body with
  | none => rfl
  | some b =>
    let s : WalkState Retargeting := { program := w.program, user := w.user, owner := m }
    have hidle : (walkBody (retarget (some m)) b).Idle b s := by
      refine walkBody_idle rfl rfl ?_ (hclean b hbody)
      rintro pos block rfl
      exact hp.placed m pos block hbody
    have hrun : (walkBody (retarget (some m)) b).run s = (b, s) := hidle
    simp only [s] at hrun
    simp only [hrun, setBody_eq_self hbody]
    rw [← hfault]

/-! ## Section 3: Rounds without effect -/

/-- The methods have been taken up, and nothing was changed. -/
structure Round.Idles (ms : List MethodRef) (r r' : Round Retargeting) : Prop where
  walked : r'.walked = r.walked
  seen : ∀ m ∈ r.seen, m ∈ r'.seen
  all : ∀ m ∈ ms, m ∈ r'.seen
  /-- What was taken up before is not taken up again. -/
  same : (∀ m ∈ ms, m ∈ r.seen) → r' = r

namespace Round.Idles

variable {r r' r'' : Round Retargeting} {ms ms' : List MethodRef}

theorem refl (r : Round Retargeting) : Idles [] r r :=
  ⟨rfl, fun _ hm => hm, nofun, fun _ => rfl⟩

theorem trans (h : Idles ms r r') (h' : Idles ms' r' r'') : Idles (ms ++ ms') r r'' := by
  refine ⟨h'.walked.trans h.walked, fun m hm => h'.seen m (h.seen m hm), ?_, ?_⟩
  · intro m hm
    rcases List.mem_append.mp hm with hm | hm
    · exact h'.seen m (h.all m hm)
    · exact h'.all m hm
  · intro hseen
    have hr' : r' = r := h.same fun m hm => hseen m (List.mem_append_left _ hm)
    rw [hr'] at h'
    exact h'.same fun m hm => hseen m (List.mem_append_right _ hm)

end Round.Idles

section

variable {r : Round Retargeting} (hp : r.walked.program.Coherent) (hfault : r.walked.fault = none)
  (hclean : ∀ m, r.walked.program.Clean m)

include hp hfault hclean

theorem takeUp_idle (m : MethodRef) :
    Round.Idles [m] r (takeUp (fun m => retarget (some m)) m r) := by
  unfold takeUp
  by_cases hm : m ∈ r.seen
  · rw [if_pos hm]
    exact ⟨rfl, fun _ hk => hk, by simpa using hm, fun _ => rfl⟩
  · rw [if_neg hm, walkMethod_idle hp hfault (hclean m)]
    refine ⟨rfl, fun _ hk => List.mem_cons_of_mem _ hk, by simp, ?_⟩
    intro hseen
    exact absurd (hseen m (List.mem_singleton_self m)) hm

/-- The methods of a type from the index `i` on. -/
theorem walkType_idle {t : TypeRef} {fuel i : Nat}
    (hi : i ≤ (r.walked.program.type t).methods.length)
    (hfuel : (r.walked.program.type t).methods.length < i + fuel) :
    Round.Idles ((r.walked.program.type t).methods.drop i) r
      (walkType (fun m => retarget (some m)) t fuel i r) := by
  induction fuel generalizing i r with
  | zero => omega
  | succ fuel ih =>
    simp only [walkType, hfault, Option.isSome_none, Bool.false_eq_true, if_false]
    cases hget : (r.walked.program.type t).methods[i]? with
    | none =>
      rw [List.drop_eq_nil_of_le (List.getElem?_eq_none_iff.mp hget)]
      exact .refl r
    | some m =>
      obtain ⟨hlt, hm⟩ := List.getElem?_eq_some_iff.mp hget
      have hfirst := takeUp_idle hp hfault hclean m
      have hrest := ih (r := takeUp (fun m => retarget (some m)) m r) (i := i + 1)
      rw [hfirst.walked] at hrest
      rw [List.drop_eq_getElem_cons hlt, hm]
      exact hfirst.trans (hrest hp hfault hclean hlt (by omega))

theorem foldl_walkType_idle {ts : List TypeRef} {bound : Nat}
    (hbound : ∀ t ∈ ts, (r.walked.program.type t).methods.length < bound) :
    Round.Idles (ts.flatMap fun t => (r.walked.program.type t).methods) r
      (ts.foldl (fun r t => walkType (fun m => retarget (some m)) t bound 0 r) r) := by
  induction ts generalizing r with
  | nil => exact .refl r
  | cons t ts ih =>
    rw [List.forall_mem_cons] at hbound
    have hfirst : Round.Idles (r.walked.program.type t).methods r
        (walkType (fun m => retarget (some m)) t bound 0 r) :=
      walkType_idle hp hfault hclean (Nat.zero_le _) (by omega)
    have hrest := ih (r := walkType (fun m => retarget (some m)) t bound 0 r)
    rw [hfirst.walked] at hrest
    rw [List.flatMap_cons, List.foldl_cons]
    exact hfirst.trans (hrest hp hfault hclean hbound.2)

/-- The first round takes up every method, and the second finds none. -/
theorem walkRounds_idle {bound fuel : Nat}
    (hbound : ∀ t ∈ r.walked.program.declared,
      (r.walked.program.type t).methods.length < bound) :
    (walkRounds (fun m => retarget (some m)) bound (fuel + 2) r).walked = r.walked := by
  have hfirst := foldl_walkType_idle hp hfault hclean hbound
  rw [walkRounds]
  generalize r.walked.program.declared.foldl
    (fun r t => walkType (fun m => retarget (some m)) t bound 0 r) r = r₁ at hfirst
  split
  · exact hfirst.walked
  · -- the second round begins where the first began, with every method seen
    have hp₁ : r₁.walked.program.Coherent := by
      rw [hfirst.walked]
      exact hp
    have hfault₁ : r₁.walked.fault = none := by
      rw [hfirst.walked]
      exact hfault
    have hclean₁ : ∀ m, r₁.walked.program.Clean m := by
      rw [hfirst.walked]
      exact hclean
    have hbound₁ : ∀ t ∈ r₁.walked.program.declared,
        (r₁.walked.program.type t).methods.length < bound := by
      rw [hfirst.walked]
      exact hbound
    have hsame := (foldl_walkType_idle hp₁ hfault₁ hclean₁ hbound₁).same (by
      rw [hfirst.walked]
      exact hfirst.all)
    rw [walkRounds, hsame]
    simp [hfirst.walked]

end

theorem le_foldr_add {α : Type} {f : α → Nat} {xs : List α} {x : α} (h : x ∈ xs) :
    f x ≤ xs.foldr (fun x n => f x + n) 0 := by
  induction xs with
  | nil => cases h
  | cons y ys ih =>
    rw [List.foldr_cons]
    rcases List.mem_cons.mp h with rfl | h
    · exact Nat.le_add_right _ _
    · exact Nat.le_add_left_of_le (ih h)

/-- Nothing is retargeted in a program in which no method uses a default method. -/
theorem retargetAll_idle {p : Program} (hp : p.Coherent) (hclean : ∀ m, p.Clean m)
    (state : Retargeting) : p.retargetAll state = { program := p, user := state } := by
  have hbound : ∀ t ∈ p.declared, (p.type t).methods.length < p.walkBound := by
    intro t ht
    have hle : (p.type t).methods.length ≤ _ :=
      le_foldr_add (f := fun t => (p.type t).methods.length) ht
    unfold walkBound
    omega
  exact walkRounds_idle (r := ⟨{ program := p, user := state }, []⟩) hp rfl hclean hbound

end Program

/-! ## Section 4: Classes that lack nothing -/

namespace Forwarding

open Program

theorem foldl_idle {α β : Type} {f : β → α → β} {xs : List α} {b : β} (h : ∀ x ∈ xs, f b x = b) :
    xs.foldl f b = b := by
  induction xs with
  | nil => rfl
  | cons x xs ih =>
    rw [List.forall_mem_cons] at h
    rw [List.foldl_cons, h.1]
    exact ih h.2

variable {s : Forwarding} (hfault : s.fault = none) (hp : s.program.IsLowered)

include hfault hp

/-- A covered default method has its twin, and the classes have their methods. -/
theorem addForwarders_idle {d : MethodRef} (hd : s.program.isDefault d = true)
    {classes : List TypeRef} (hclasses : s.program.implementors (s.program.home d) = classes)
    (hsome : classes ≠ []) : s.addForwarders classes d = s := by
  have hcovered := hp.covered d hd
  unfold Covered at hcovered
  rw [hclasses] at hcovered
  -- a twin is asked for only if there is a class, and then there is one
  obtain ⟨c, hc⟩ := List.exists_mem_of_ne_nil classes hsome
  obtain ⟨twin, htwin⟩ := Option.isSome_iff_exists.mp (hcovered c hc).1
  have hown : ∀ t ∈ classes, s.addForwarder d twin t = s := by
    intro t ht
    have hdeclares := ownMethod_isSome.mpr (hcovered t ht).2
    unfold addForwarder
    simp only [hdeclares, if_true]
  unfold addForwarders
  rw [hfault, requestTwin_eq hp.coherent hd, htwin]
  exact foldl_idle hown

theorem addForType_idle {t : TypeRef} (ht : t ∈ s.program.declared) : s.addForType t = s := by
  simp only [addForType]
  split
  · rfl
  · split
    · rfl
    · rename_i hclasses
      refine foldl_idle fun d hd => ?_
      obtain ⟨hmem, hdefault⟩ := List.mem_filter.mp hd
      have hhome : s.program.home d = t := by
        simp [home, (hp.coherent.member t ht d hmem).2]
      exact addForwarders_idle hfault hp hdefault (by rw [hhome]) (by simpa using hclasses)

end Forwarding

/-- A lowered program needs no forwarders. -/
theorem Forwarding.run_idle {p : Program} (hp : p.IsLowered) (log : TwinLog) :
    Forwarding.run p log = { program := p, twinLog := log } := by
  let s : Forwarding := { program := p, twinLog := log }
  have hidle : ∀ t ∈ p.declared, s.addForType t = s :=
    fun t ht => addForType_idle (s := s) rfl hp ht
  exact foldl_idle hidle

namespace Program

/-! ## Section 5: Whole runs -/

/-- Lowering leaves a lowered program as it is, and the name cache too. -/
theorem lower_of_isLowered {p : Program} (hp : p.IsLowered) (cache : NameCache) :
    p.lower cache = ⟨p, cache, .ok ⟨[], [], ⟨0, 0, 0, 0⟩⟩⟩ := by
  simp only [lower, Forwarding.run_idle hp, retargetAll_idle hp.coherent hp.clean]

/-- A successful run on a loaded program leaves nothing to be lowered.  A second run succeeds, with
    whatever name cache it begins.  It does and counts nothing, and leaves the program exactly as it
    is. -/
theorem lower_idempotent {p q : Program} (hp : p.Loaded) {cache cache' : NameCache}
    {summary : Summary} (hrun : p.lower cache = ⟨q, cache', .ok summary⟩) (again : NameCache) :
    q.IsLowered ∧ ∃ summary', q.lower again = ⟨q, again, .ok summary'⟩ ∧
      summary'.twins.length = 0 ∧ summary'.forwarders.length = 0 ∧
      summary'.counts = ⟨0, 0, 0, 0⟩ ∧ summary'.changed = false := by
  obtain ⟨-, -, hlowered⟩ := lower_lowered hp.fresh.toCoherent hrun
  exact ⟨hlowered, ⟨[], [], ⟨0, 0, 0, 0⟩⟩, lower_of_isLowered hlowered again, rfl, rfl, rfl, rfl⟩

theorem lower_idempotent_greeting : ∃ q cache summary, greetingProgram.Loaded ∧
    greetingProgram.lower {} = ⟨q, cache, .ok summary⟩ ∧ summary.twins.length = 3 ∧
      ∃ summary', q.lower cache = ⟨q, cache, .ok summary'⟩ ∧ summary'.changed = false := by
  obtain ⟨q, cache, summary, hrun, htwins, -⟩ := greeting_lowers
  obtain ⟨-, summary', hagain, -, -, -, hchanged⟩ := lower_idempotent greeting_loaded hrun cache
  exact ⟨q, cache, summary, greeting_loaded, hrun, htwins, summary', hagain, hchanged⟩

end Program

end DefaultLowering
