import DefaultLowering.Proofs.Failure

/-!
# Walks end

`walkType` and `walkRounds` count their turns, so that they are functions.  Here are the same two loops
without a count: a loop over the methods of a type while the type gets more of them, and rounds over
all types as long as one takes up a method that no round before it has.

- `TypeDone`, `TypesDone`, `Done`: the loops, from where they are to where they end;
- `Done.unique`: there is at most one end;
- `done_of_fault`: if the counts are not used up, the functions compute the end of the loops;
- `retargetAll_done`: for the walk that retargets calls there is always an end.  Without a fault, every
  method of the program as it then is was taken up once.
-/

namespace DefaultLowering.Program

/-! ## Section 1: Loops without a bound -/

section loops

variable {σ : Type} (leave : MethodRef → Node → Walk σ Node)

/-- The methods of a type are taken up from the index `i` on, until there is none or a fault. -/
inductive TypeDone (t : TypeRef) : Nat → Round σ → Round σ → Prop
  | stopped {i : Nat} {r : Round σ} (hfault : r.walked.fault.isSome = true) : TypeDone t i r r
  | passed {i : Nat} {r : Round σ} (hfault : r.walked.fault = none)
      (hend : (r.walked.program.type t).methods[i]? = none) : TypeDone t i r r
  | next {i : Nat} {r r' : Round σ} {m : MethodRef} (hfault : r.walked.fault = none)
      (hm : (r.walked.program.type t).methods[i]? = some m)
      (hrest : TypeDone t (i + 1) (takeUp leave m r) r') : TypeDone t i r r'

/-- One type after the other. -/
inductive TypesDone : List TypeRef → Round σ → Round σ → Prop
  | nil {r : Round σ} : TypesDone [] r r
  | cons {t : TypeRef} {ts : List TypeRef} {r r₁ r' : Round σ} (hfirst : TypeDone leave t 0 r r₁)
      (hrest : TypesDone ts r₁ r') : TypesDone (t :: ts) r r'

/-- Rounds over all types.  A round that has taken up no method is the last. -/
inductive Done : Round σ → Round σ → Prop
  | last {r r' : Round σ} (hround : TypesDone leave r.walked.program.declared r r')
      (hstop : r'.walked.fault.isSome = true ∨ r'.seen.length = r.seen.length) : Done r r'
  | again {r r₁ r' : Round σ} (hround : TypesDone leave r.walked.program.declared r r₁)
      (hfault : r₁.walked.fault = none) (hmore : r₁.seen.length ≠ r.seen.length)
      (hrest : Done r₁ r') : Done r r'

variable {leave}

theorem TypeDone.unique {t : TypeRef} {i : Nat} {r r₁ r₂ : Round σ} (h₁ : TypeDone leave t i r r₁)
    (h₂ : TypeDone leave t i r r₂) : r₁ = r₂ := by
  induction h₁ with
  | stopped hfault =>
    cases h₂ with
    | stopped => rfl
    | passed => rfl
    | next hnone => simp [hnone] at hfault
  | passed hfault hend =>
    cases h₂ with
    | stopped => rfl
    | passed => rfl
    | next _ hm =>
      rw [hend] at hm
      cases hm
  | next hfault hm _ ih =>
    cases h₂ with
    | stopped hsome => simp [hfault] at hsome
    | passed _ hend =>
      rw [hend] at hm
      cases hm
    | next _ hm' hrest =>
      rw [hm] at hm'
      cases hm'
      exact ih hrest

theorem TypesDone.unique {ts : List TypeRef} {r r₁ r₂ : Round σ} (h₁ : TypesDone leave ts r r₁)
    (h₂ : TypesDone leave ts r r₂) : r₁ = r₂ := by
  induction h₁ with
  | nil =>
    cases h₂
    rfl
  | cons hfirst _ ih =>
    cases h₂ with
    | cons hfirst' hrest =>
      cases hfirst.unique hfirst'
      exact ih hrest

/-- The loops have at most one end. -/
theorem Done.unique {r r₁ r₂ : Round σ} (h₁ : Done leave r r₁) (h₂ : Done leave r r₂) :
    r₁ = r₂ := by
  induction h₁ with
  | last hround hstop =>
    cases h₂ with
    | last hround' => exact hround.unique hround'
    | again hround' hfault hmore =>
      cases hround.unique hround'
      rcases hstop with hstop | hstop
      · simp [hfault] at hstop
      · exact absurd hstop hmore
  | again hround hfault hmore _ ih =>
    cases h₂ with
    | last hround' hstop =>
      cases hround.unique hround'
      rcases hstop with hstop | hstop
      · simp [hfault] at hstop
      · exact absurd hstop hmore
    | again hround' _ _ hrest =>
      cases hround.unique hround'
      exact ih hrest

/-! ## Section 2: Counted loops -/

/-- A count that is not used up makes no difference. -/
theorem typeDone_of_fault {t : TypeRef} {fuel i : Nat} {r : Round σ}
    (h : (walkType leave t fuel i r).walked.fault ≠ some .unbounded) :
    TypeDone leave t i r (walkType leave t fuel i r) := by
  induction fuel generalizing i r with
  | zero =>
    -- a count that is used up is a fault, if there was none before
    cases hfault : r.walked.fault with
    | none => simp [walkType, hfault] at h
    | some =>
      have hkept : (r.walked.fault <|> some .unbounded) = r.walked.fault := by rw [hfault]; rfl
      have hsame : walkType leave t 0 i r = r := by rw [walkType, hkept]
      rw [hsame]
      exact .stopped (by simp [hfault])
  | succ fuel ih =>
    cases hfault : r.walked.fault with
    | some =>
      have hsame : walkType leave t (fuel + 1) i r = r := by simp [walkType, hfault]
      rw [hsame]
      exact .stopped (by simp [hfault])
    | none =>
      cases hm : (r.walked.program.type t).methods[i]? with
      | none =>
        have hsame : walkType leave t (fuel + 1) i r = r := by simp [walkType, hfault, hm]
        rw [hsame]
        exact .passed hfault hm
      | some m =>
        have hnext : walkType leave t (fuel + 1) i r =
            walkType leave t fuel (i + 1) (takeUp leave m r) := by
          simp [walkType, hfault, hm]
        rw [hnext] at h ⊢
        exact .next hfault hm (ih h)

theorem typesDone_of_fault (bound : Nat) {ts : List TypeRef} {r : Round σ}
    (h : (ts.foldl (fun r t => walkType leave t bound 0 r) r).walked.fault ≠ some .unbounded) :
    TypesDone leave ts r (ts.foldl (fun r t => walkType leave t bound 0 r) r) := by
  induction ts generalizing r with
  | nil => exact .nil
  | cons t ts ih =>
    rw [List.foldl_cons] at h
    -- a fault of the first type would be the fault of all
    have hfirst : (walkType leave t bound 0 r).walked.fault ≠ some .unbounded :=
      fun hfault => h (foldl_walkType_of_fault hfault)
    exact .cons (typeDone_of_fault hfirst) (ih h)

theorem done_of_fault {bound fuel : Nat} {r : Round σ} (hbefore : r.walked.fault = none)
    (h : (walkRounds leave bound fuel r).walked.fault ≠ some .unbounded) :
    Done leave r (walkRounds leave bound fuel r) := by
  induction fuel generalizing r with
  | zero => simp [walkRounds, hbefore] at h
  | succ fuel ih =>
    unfold walkRounds at h ⊢
    dsimp only at h ⊢
    -- the round is the same whether or not it is the last
    have hround : _ → TypesDone leave r.walked.program.declared r _ :=
      typesDone_of_fault bound
    generalize r.walked.program.declared.foldl (fun r t => walkType leave t bound 0 r) r = next
      at h hround ⊢
    by_cases hstop : (next.walked.fault.isSome || next.seen.length = r.seen.length) = true
    · rw [if_pos hstop] at h ⊢
      exact .last (hround h) (by simpa using hstop)
    · rw [if_neg hstop] at h ⊢
      have hgo : next.walked.fault = none ∧ next.seen.length ≠ r.seen.length := by
        simpa using hstop
      exact .again (hround (by simp [hgo.1])) hgo.1 hgo.2 (ih hgo.1 h)

/-! ## Section 3: What was taken up -/

section invariant

variable {I : Round σ → Prop}
  (hstep : ∀ r m, r.walked.fault = none → I r → I (takeUp leave m r))

include hstep

theorem TypeDone.invariant {t : TypeRef} {i : Nat} {r r' : Round σ} (hdone : TypeDone leave t i r r')
    (h : I r) : I r' := by
  induction hdone with
  | stopped => exact h
  | passed => exact h
  | next hfault _ _ ih => exact ih (hstep _ _ hfault h)

theorem TypesDone.invariant {ts : List TypeRef} {r r' : Round σ} (hdone : TypesDone leave ts r r')
    (h : I r) : I r' := by
  induction hdone with
  | nil => exact h
  | cons hfirst _ ih => exact ih (hfirst.invariant hstep h)

/-- What is kept when a method is taken up is kept by the loops. -/
theorem Done.invariant {r r' : Round σ} (hdone : Done leave r r') (h : I r) : I r' := by
  induction hdone with
  | last hround => exact hround.invariant hstep h
  | again hround _ _ _ ih => exact ih (hround.invariant hstep h)

end invariant

/-- The result of walking some methods, the last of the list first. -/
def walkEach (leave : MethodRef → Node → Walk σ Node) (start : Walked σ) (ms : List MethodRef) :
    Walked σ :=
  ms.foldr (fun m w => walkMethod (leave m) m w) start

/-- The list of methods taken up is a record of the walks. -/
theorem Done.walkEach {start : Walked σ} {r r' : Round σ} (hdone : Done leave r r')
    (h : r.walked = walkEach leave start r.seen) :
    r'.walked = Program.walkEach leave start r'.seen := by
  refine hdone.invariant (I := fun r => r.walked = Program.walkEach leave start r.seen) ?_ h
  intro r m _ hr
  unfold takeUp
  split
  · exact hr
  · show walkMethod (leave m) m r.walked = Program.walkEach leave start (m :: r.seen)
    rw [hr]
    rfl

end loops

/-! ## Section 4: The walk that retargets -/

/-- Where retargeting begins. -/
def Round.start (p : Program) (state : Retargeting) : Round Retargeting :=
  ⟨{ program := p, user := state }, []⟩

/-- Retargeting all methods stops for a fault, or takes up each method of the program that it leaves
    once.  It stops at no bound. -/
theorem retargetAll_ends {p q : Program} {state : Retargeting} (hp : p.Fresh)
    (hsteps : Steps (.any state.cache) p q) :
    ∃ r, Done (fun m => retarget (some m)) (.start q state) r ∧ r.walked = q.retargetAll state ∧
      ((∃ fault, r.walked.fault = some fault ∧ fault.category = .invariant) ∨
        r.walked.fault = none ∧ r.seen.Nodup ∧
          ∀ m, m ∈ r.seen ↔ m ∈ r.walked.program.declaredMethods) := by
  have hq := hsteps.coherent hp.toCoherent
  have hremembers := remembers_self state.cache q
  -- a walk stops only at a fragment that cannot be renamed, and so never for want of turns
  have hcategory : ∀ fault, (q.retargetAll state).fault = some fault →
      fault.category = .invariant := fun fault hfault =>
    (Stopped.hasUnresolvable hp (.of_steps (Permit.within_any fun _ _ _ h => h) hsteps
      (retargetAll_stopped hq hremembers hfault))).2
  have hbounded : (q.retargetAll state).fault ≠ some .unbounded :=
    fun hfault => nomatch hcategory _ hfault
  refine ⟨_, done_of_fault rfl hbounded, rfl, ?_⟩
  generalize hr : walkRounds (fun m => retarget (some m)) q.walkBound q.walkBound
    (.start q state) = r
  have hwalked : r.walked = q.retargetAll state := by rw [← hr]; rfl
  cases hfault : r.walked.fault with
  | some fault => exact .inl ⟨fault, rfl, hcategory fault (hwalked ▸ hfault)⟩
  | none =>
    obtain ⟨hinv, hseen⟩ := walkRounds_complete hq (.start hremembers) hr hfault
    have hdeclared := (hinv.steps.extends hq).declared
    -- no type is added: what is new are methods of the types that the rounds go over
    refine .inr ⟨rfl, hinv.seen_nodup, fun m => ⟨fun hm => ?_, fun hm => ?_⟩⟩
    · obtain ⟨hhome, -, hmem⟩ := (hinv.steps.coherent hq).home_declared (hinv.seen_lt m hm)
      exact List.mem_flatMap.mpr ⟨_, hhome, hmem⟩
    · obtain ⟨t, ht, hmem⟩ := List.mem_flatMap.mp hm
      exact hseen t (hdeclared ▸ ht) m hmem

/-- For every loaded program, the loops that retarget calls have one end, before forwarders were added
    and after that.  Either a fragment breaks an invariant there, or the methods walked are the methods of
    the program as it is at the end, every one once. -/
theorem retargetAll_done {p q : Program} (hp : p.Loaded) (hq : q = p ∨ q = p.forwarded)
    (state : Retargeting) :
    ∃ r, Done (fun m => retarget (some m)) (.start q state) r ∧
      (∀ r', Done (fun m => retarget (some m)) (.start q state) r' → r' = r) ∧
      r.walked = q.retargetAll state ∧
      r.walked =
        walkEach (fun m => retarget (some m)) { program := q, user := state } r.seen ∧
      ((∃ fault, r.walked.fault = some fault ∧ fault.category = .invariant) ∨
        r.walked.fault = none ∧ r.seen.Nodup ∧
          ∀ m, m ∈ r.seen ↔ m ∈ r.walked.program.declaredMethods) := by
  have hfresh := hp.fresh
  have hsteps : Steps (.any state.cache) p q := by
    rcases hq with rfl | rfl
    · exact .refl
    · exact (Forwarding.run_covered hfresh.toCoherent {}).1.mono Forwarding.permit_within_any
  obtain ⟨r, hdone, hwalked, hend⟩ := retargetAll_ends hfresh hsteps
  exact ⟨r, hdone, fun r' hdone' => hdone'.unique hdone, hwalked, hdone.walkEach rfl, hend⟩

/-- The walk over the small program meets the twins that it makes. -/
theorem retargetAll_done_greeting : greetingProgram.Loaded ∧
    ∃ r, Done (fun m => retarget (some m)) (.start greetingProgram ⟨{}, {}, {}⟩) r ∧
      greetingProgram.methods.length < r.walked.program.methods.length ∧ r.seen.Nodup ∧
      ∀ m, m ∈ r.seen ↔ m ∈ r.walked.program.declaredMethods := by
  obtain ⟨r, hdone, -, hwalked, -, hend⟩ := retargetAll_done greeting_loaded (.inl rfl) ⟨{}, {}, {}⟩
  have hfault : (greetingProgram.retargetAll ⟨{}, {}, {}⟩).fault = none := by decide +kernel
  have hmore : greetingProgram.methods.length <
      (greetingProgram.retargetAll ⟨{}, {}, {}⟩).program.methods.length := by decide +kernel
  refine ⟨greeting_loaded, r, hdone, hwalked ▸ hmore, ?_⟩
  rcases hend with ⟨fault, hsome, -⟩ | ⟨-, hend⟩
  · rw [hwalked, hfault] at hsome
    cases hsome
  · exact hend

end DefaultLowering.Program
