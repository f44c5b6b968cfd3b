import DefaultLowering.Proofs.Growth
import DefaultLowering.Proofs.Traversal

/-!
# Walking all methods

The traversal of a program goes through all types again and again until a round takes up no new
method.  If no fault stops it, it is a sequence of steps, and in the end no method uses a default
method:

- `Round.Inv`: the invariant.  Every method that was taken up uses no default method;
- `walkType_inv`, `foldl_walkType_inv`: one type and one round keep it;
- `walkRounds_complete`: a round that takes up nothing has changed nothing, so it has seen every
  method of the program as it is.

The bounds on rounds and types are never reached, because at most one method is added for each there
is.  So the only fault is that of a fragment that cannot be renamed (`walkRounds_stopped`).
-/

namespace DefaultLowering.Program

variable {state : Retargeting} {t : TypeRef} {i fuel bound : Nat} {ts : List TypeRef}
  {fault : Fault}

/-- A walk over a program makes twins of the default methods that are used, and names them as the
    cache does in the end. -/
def Permit.walking (p : Program) (base cache : NameCache) : Permit :=
  .retargeting (fun d => p.isDefault d = true → p.Uses d) base cache

/-- What holds while a program is walked that began as `p`. -/
structure Round.Inv (base : NameCache) (p : Program) (r : Round Retargeting) : Prop where
  steps : Steps (.walking p base r.walked.user.cache) p r.walked.program
  remembers : Remembers base r.walked.program r.walked.user.cache
  seen_lt : ∀ m ∈ r.seen, m.index < r.walked.program.methods.length
  seen_nodup : r.seen.Nodup
  clean : ∀ m ∈ r.seen, r.walked.program.Clean m

theorem Round.Inv.start {base : NameCache} {p : Program} (h : Remembers base p state.cache) :
    Inv base p ⟨{ program := p, user := state }, []⟩ :=
  ⟨.refl, h, by simp, List.nodup_nil, by simp⟩

/-- As many methods as there are can be taken up. -/
theorem Round.Inv.length_seen_le {base : NameCache} {p : Program} {r : Round Retargeting}
    (h : r.Inv base p) : r.seen.length ≤ r.walked.program.methods.length := by
  have hsub : r.seen ⊆ (List.range r.walked.program.methods.length).map MethodRef.mk := by
    intro m hm
    exact List.mem_map.mpr ⟨m.index, List.mem_range.mpr (h.seen_lt m hm), rfl⟩
  have hle := (List.subperm_of_subset h.seen_nodup hsub).length_le
  rwa [List.length_map, List.length_range] at hle

/-- The second state comes from the first: nothing was taken up, or more than before is seen. -/
structure Round.Grows (r r' : Round Retargeting) : Prop where
  fault : r.walked.fault = none
  seen : ∀ m ∈ r.seen, m ∈ r'.seen
  more : r' = r ∨ r.seen.length < r'.seen.length

namespace Round.Grows

variable {r r' r'' : Round Retargeting}

theorem refl (h : r.walked.fault = none) : Grows r r := ⟨h, fun _ hm => hm, .inl rfl⟩

theorem le (h : Grows r r') : r.seen.length ≤ r'.seen.length := by
  rcases h.more with heq | hlt
  · exact Nat.le_of_eq (congrArg (·.seen.length) heq.symm)
  · exact Nat.le_of_lt hlt

theorem trans (h : Grows r r') (h' : Grows r' r'') : Grows r r'' := by
  refine ⟨h.fault, fun m hm => h'.seen m (h.seen m hm), ?_⟩
  rcases h'.more with heq | hlt
  · rw [heq]
    exact h.more
  · exact .inr (Nat.lt_of_le_of_lt h.le hlt)

end Round.Grows

section

variable {base : NameCache} {p : Program} {r r' : Round Retargeting}

/-! ## Section 1: One method -/

theorem Round.Inv.lt_of_mem (hp : p.Coherent) (hr : r.Inv base p) {m : MethodRef}
    (ht : t ∈ p.declared) (hm : m ∈ (r.walked.program.type t).methods) :
    m.index < r.walked.program.methods.length := by
  rw [← (hr.steps.extends hp).declared] at ht
  exact ((hr.steps.coherent hp).member t ht m hm).1

theorem takeUp_inv (hp : p.Coherent) (hr : r.Inv base p) {m : MethodRef}
    (hlt : m.index < r.walked.program.methods.length) (hbefore : r.walked.fault = none)
    (hrun : takeUp (fun m => retarget (some m)) m r = r') (hfault : r'.walked.fault = none) :
    r'.Inv base p ∧ r.Grows r' ∧ m ∈ r'.seen ∧
      r.walked.program.Extends r'.walked.program := by
  unfold takeUp at hrun
  by_cases hm : m ∈ r.seen
  · rw [if_pos hm] at hrun
    subst hrun
    exact ⟨hr, .refl hbefore, hm, .refl _⟩
  · rw [if_neg hm] at hrun
    subst hrun
    -- the walk leaves the method clean, and its steps keep clean what was clean before
    have hcoherent := hr.steps.coherent hp
    obtain ⟨hsteps, hremembers, hclean, hcache⟩ :=
      walkMethod_steps hcoherent hr.remembers hfault
    have hext := hsteps.extends hcoherent
    have huses : ∀ d, r.walked.program.UsedIn m d → p.isDefault d = true → p.Uses d :=
      fun d hd hdefault => hr.steps.uses hp hdefault ⟨m, hd⟩
    have hall := (hr.steps.mono (Permit.retargeting_within (fun _ h => h) hcache)).trans
      (hsteps.mono (Permit.retargeting_within huses fun _ _ h => h))
    refine ⟨⟨hall, hremembers, ?_, List.nodup_cons.mpr ⟨hm, hr.seen_nodup⟩, ?_⟩,
      ⟨hbefore, ?_, .inr ?_⟩, ?_, hext⟩
    · intro k hk
      rcases List.mem_cons.mp hk with rfl | hk
      · exact Nat.lt_of_lt_of_le hlt hext.length_methods
      · exact Nat.lt_of_lt_of_le (hr.seen_lt k hk) hext.length_methods
    · intro k hk
      rcases List.mem_cons.mp hk with rfl | hk
      · exact hclean
      · exact hsteps.clean hcoherent (hr.seen_lt k hk) (hr.clean k hk)
    · intro k hk
      exact List.mem_cons_of_mem _ hk
    · exact Nat.lt_succ_self _
    · exact List.mem_cons_self

/-! ## Section 2: One type -/

/-- A traversal that ends without a fault began without one. -/
theorem walkType_fault (hrun : walkType (fun m => retarget (some m)) t fuel i r = r')
    (hfault : r'.walked.fault = none) : r.walked.fault = none := by
  cases hbefore : r.walked.fault with
  | none => rfl
  | some =>
    subst hrun
    cases fuel with
    | zero => simp [walkType, hbefore] at hfault
    | succ => simp [walkType, hbefore] at hfault

/-- The methods of a type from some index on, with those that are added on the way. -/
theorem walkType_inv (hp : p.Coherent) (ht : t ∈ p.declared) (hr : r.Inv base p)
    (hrun : walkType (fun m => retarget (some m)) t fuel i r = r')
    (hfault : r'.walked.fault = none) :
    r'.Inv base p ∧ r.Grows r' ∧ r.walked.program.Extends r'.walked.program ∧
      ∀ j m, i ≤ j → (r'.walked.program.type t).methods[j]? = some m → m ∈ r'.seen := by
  have hbefore := walkType_fault hrun hfault
  -- by the fuel, which does not run out without a fault
  induction fuel generalizing i r with
  | zero =>
    subst hrun
    simp [walkType, hbefore] at hfault
  | succ fuel ih =>
    simp only [walkType, hbefore, Option.isSome_none, Bool.false_eq_true, if_false] at hrun
    cases hget : (r.walked.program.type t).methods[i]? with
    | none =>
      simp only [hget] at hrun
      subst hrun
      refine ⟨hr, .refl hbefore, .refl _, ?_⟩
      intro j m hij hj
      rw [List.getElem?_eq_none_iff] at hget
      rw [List.getElem?_eq_none (Nat.le_trans hget hij)] at hj
      cases hj
    | some =>
      simp only [hget] at hrun
      have hlt := hr.lt_of_mem hp ht (List.mem_of_getElem? hget)
      have hmid := walkType_fault hrun hfault
      obtain ⟨hr₁, hgrows₁, hmem, hext₁⟩ := takeUp_inv hp hr hlt hbefore rfl hmid
      obtain ⟨hr', hgrows', hext', hrest⟩ := ih hr₁ hrun hmid
      refine ⟨hr', hgrows₁.trans hgrows', hext₁.trans hext', ?_⟩
      intro j k hij hj
      rcases Nat.eq_or_lt_of_le hij with rfl | hlt
      · -- the list of methods only grows at its end
        obtain ⟨new, hnew⟩ := (hext₁.trans hext').type t
        rw [hnew, List.getElem?_append_left (List.getElem?_eq_some_iff.mp hget).1, hget] at hj
        cases hj
        exact hgrows'.seen _ hmem
      · exact hrest j k hlt hj

/-! ## Section 3: All types, once -/

theorem foldl_walkType_fault
    (hrun : ts.foldl (fun r t => walkType (fun m => retarget (some m)) t bound 0 r) r = r')
    (hfault : r'.walked.fault = none) : r.walked.fault = none := by
  induction ts generalizing r with
  | nil =>
    subst hrun
    exact hfault
  | cons t ts ih => exact walkType_fault rfl (ih hrun)

theorem foldl_walkType_inv (hp : p.Coherent) (hts : ∀ t ∈ ts, t ∈ p.declared) (hr : r.Inv base p)
    (hrun : ts.foldl (fun r t => walkType (fun m => retarget (some m)) t bound 0 r) r = r')
    (hfault : r'.walked.fault = none) :
    r'.Inv base p ∧ r.Grows r' ∧
      (r'.seen.length = r.seen.length → ∀ t ∈ ts, ∀ m ∈ (r.walked.program.type t).methods,
        m ∈ r.seen) := by
  induction ts generalizing r with
  | nil =>
    subst hrun
    exact ⟨hr, .refl hfault, fun _ t ht => by cases ht⟩
  | cons t ts ih =>
    rw [List.forall_mem_cons] at hts
    rw [List.foldl_cons] at hrun
    have hmid := foldl_walkType_fault hrun hfault
    obtain ⟨hr₁, hgrows₁, -, hall⟩ := walkType_inv hp hts.1 hr rfl hmid
    obtain ⟨hr', hgrows', hrest⟩ := ih hts.2 hr₁ hrun
    refine ⟨hr', hgrows₁.trans hgrows', ?_⟩
    intro hlength
    -- if nothing was taken up, the round is still where it began
    have hsame : walkType (fun m => retarget (some m)) t bound 0 r = r := by
      rcases hgrows₁.more with heq | hlt
      · exact heq
      · have hle := hgrows'.le
        omega
    rw [hsame] at hall hrest
    intro u hu m hm
    rcases List.mem_cons.mp hu with rfl | hu
    · obtain ⟨j, hj⟩ := List.mem_iff_getElem?.mp hm
      exact hall j m (Nat.zero_le j) hj
    · exact hrest hlength u hu m hm

/-! ## Section 4: All rounds -/

/-- The last round has seen every method, for it has changed nothing. -/
theorem walkRounds_complete (hp : p.Coherent) (hr : r.Inv base p)
    (hrun : walkRounds (fun m => retarget (some m)) bound fuel r = r')
    (hfault : r'.walked.fault = none) :
    r'.Inv base p ∧
      ∀ t ∈ p.declared, ∀ m ∈ (r'.walked.program.type t).methods, m ∈ r'.seen := by
  -- by the number of rounds left; to have none left is a fault
  induction fuel generalizing r with
  | zero =>
    subst hrun
    cases hbefore : r.walked.fault <;> simp [walkRounds, hbefore] at hfault
  | succ fuel ih =>
    have hdeclared : r.walked.program.declared = p.declared := (hr.steps.extends hp).declared
    rw [walkRounds, hdeclared] at hrun
    generalize hnext : p.declared.foldl
      (fun r t => walkType (fun m => retarget (some m)) t bound 0 r) r = next at hrun
    split at hrun
    next hstop =>
      subst hrun
      obtain ⟨hinv, hgrows, hall⟩ := foldl_walkType_inv hp (fun _ ht => ht) hr hnext hfault
      rcases Bool.or_eq_true_iff.mp hstop with hfault' | hlength
      · rw [hfault] at hfault'
        cases hfault'
      · -- nothing was taken up, so the round is still at its beginning and has seen all there is
        have hsame : next = r := by
          rcases hgrows.more with heq | hlt
          · exact heq
          · rw [decide_eq_true_eq] at hlength
            omega
        rw [hsame] at hinv hall ⊢
        exact ⟨hinv, hall rfl⟩
    next hgo =>
      have hmid : next.walked.fault = none := by
        cases hmid : next.walked.fault with
        | none => rfl
        | some => simp [hmid] at hgo
      exact ih (foldl_walkType_inv hp (fun _ ht => ht) hr hnext hmid).1 hrun

/-- Retargeting all methods is some steps, after which no method uses a default method. -/
theorem retargetAll_steps (hp : p.Coherent) (hremembers : Remembers base p state.cache)
    (hfault : (p.retargetAll state).fault = none) :
    Steps (.walking p base (p.retargetAll state).user.cache) p (p.retargetAll state).program ∧
      Remembers base (p.retargetAll state).program (p.retargetAll state).user.cache ∧
      ∀ m, (p.retargetAll state).program.Clean m := by
  obtain ⟨hinv, hseen⟩ := walkRounds_complete hp (.start hremembers) rfl hfault
  refine ⟨hinv.steps, hinv.remembers, fun m => ?_⟩
  by_cases hlt : m.index < (p.retargetAll state).program.methods.length
  · have hcoherent := hinv.steps.coherent hp
    obtain ⟨hhome, -, hmem⟩ := hcoherent.home_declared hlt
    rw [(hinv.steps.extends hp).declared] at hhome
    exact hinv.clean m (hseen _ hhome m hmem)
  · intro b hb
    exact absurd (lt_of_body hb) hlt

/-! ## Section 5: Bounds -/

theorem walkBound_eq (p : Program) : p.walkBound = 2 * p.declaredMethods.length + 2 := by
  have hsum : ∀ ts : List TypeRef, ts.foldr (fun t n => (p.type t).methods.length + n) 0 =
      (ts.flatMap fun t => (p.type t).methods).length := by
    intro ts
    induction ts with
    | nil => rfl
    | cons t ts ih => rw [List.foldr_cons, ih, List.flatMap_cons, List.length_append]
  rw [walkBound, hsum]
  rfl

theorem Wired.length_methods_le (hp : p.Wired) : p.methods.length ≤ p.declaredMethods.length := by
  have hnodup : ((List.range p.methods.length).map MethodRef.mk).Nodup :=
    List.nodup_range.map fun _ _ h => congrArg MethodRef.index h
  have hsub : (List.range p.methods.length).map MethodRef.mk ⊆ p.declaredMethods := by
    intro m hm
    obtain ⟨i, hi, rfl⟩ := List.mem_map.mp hm
    obtain ⟨hhome, -, hmem⟩ := hp.home_declared (m := ⟨i⟩) (List.mem_range.mp hi)
    exact List.mem_flatMap.mpr ⟨_, hhome, hmem⟩
  have hle := (List.subperm_of_subset hnodup hsub).length_le
  rwa [List.length_map, List.length_range] at hle

theorem length_methods_type_le (ht : t ∈ p.declared) :
    (p.type t).methods.length ≤ p.declaredMethods.length := by
  unfold declaredMethods
  rw [List.flatMap_def]
  exact (List.sublist_flatten_of_mem
    (List.mem_map_of_mem (f := fun t => (p.type t).methods) ht)).length_le

/-- The walk meets fewer methods than it may, in the program and in each type. -/
theorem Round.Inv.length_lt (hp : p.Coherent) (h : r.Inv base p) :
    r.walked.program.methods.length < p.walkBound ∧
      ∀ t ∈ p.declared, (r.walked.program.type t).methods.length < p.walkBound := by
  have hdouble := h.steps.length_methods_le hp (fun hfalse => hfalse)
  have hmethods := hp.toWired.length_methods_le
  rw [walkBound_eq]
  refine ⟨by omega, fun t ht => ?_⟩
  have hgrowth := h.steps.length_type_le hp t
  have hold := length_methods_type_le ht
  omega

/-! ## Section 6: Faults -/

theorem takeUp_stopped (hp : p.Coherent) (hr : r.Inv base p) {m : MethodRef}
    (hbefore : r.walked.fault = none)
    (hfault : (takeUp (fun m => retarget (some m)) m r).walked.fault = some fault) :
    Stopped base p fault := by
  unfold takeUp at hfault
  by_cases hm : m ∈ r.seen
  · rw [if_pos hm, hbefore] at hfault
    cases hfault
  · rw [if_neg hm] at hfault
    exact .of_steps Permit.retargeting_within_any hr.steps
      (walkMethod_stopped (hr.steps.coherent hp) hr.remembers hbefore hfault)

/-- The first fault stays. -/
theorem walkType_of_fault {σ : Type} {leave : MethodRef → Node → Walk σ Node} {r : Round σ}
    (hbefore : r.walked.fault = some fault) :
    (walkType leave t fuel i r).walked.fault = some fault := by
  cases fuel with
  | zero => simp [walkType, hbefore]
  | succ => simp [walkType, hbefore]

theorem walkType_stopped (hp : p.Coherent) (ht : t ∈ p.declared) (hr : r.Inv base p)
    (hbefore : r.walked.fault = none) (hi : i ≤ (r.walked.program.type t).methods.length)
    (hfuel : p.walkBound ≤ i + fuel)
    (hfault : (walkType (fun m => retarget (some m)) t fuel i r).walked.fault = some fault) :
    Stopped base p fault := by
  have hbound := (hr.length_lt hp).2 t ht
  -- by the fuel, which lasts longer than the methods of the type
  induction fuel generalizing i r with
  | zero => omega
  | succ fuel ih =>
    simp only [walkType, hbefore, Option.isSome_none, Bool.false_eq_true, if_false] at hfault
    cases hget : (r.walked.program.type t).methods[i]? with
    | none =>
      simp only [hget, hbefore] at hfault
      cases hfault
    | some m =>
      simp only [hget] at hfault
      cases hmid : (takeUp (fun m => retarget (some m)) m r).walked.fault with
      | some =>
        rw [walkType_of_fault hmid] at hfault
        cases hfault
        exact takeUp_stopped hp hr hbefore hmid
      | none =>
        have hlt := hr.lt_of_mem hp ht (List.mem_of_getElem? hget)
        obtain ⟨hr₁, -, -, hext₁⟩ := takeUp_inv hp hr hlt hbefore rfl hmid
        obtain ⟨new, hnew⟩ := hext₁.type t
        have hlength := congrArg (·.methods.length) hnew
        have hi₁ := (List.getElem?_eq_some_iff.mp hget).1
        simp only [List.length_append] at hlength
        exact ih hr₁ hmid (by omega) (by omega) hfault ((hr₁.length_lt hp).2 t ht)

theorem foldl_walkType_of_fault {σ : Type} {leave : MethodRef → Node → Walk σ Node} {r : Round σ}
    (hbefore : r.walked.fault = some fault) :
    (ts.foldl (fun r t => walkType leave t bound 0 r) r).walked.fault = some fault := by
  induction ts generalizing r with
  | nil => exact hbefore
  | cons t ts ih => exact ih (walkType_of_fault hbefore)

theorem foldl_walkType_stopped (hp : p.Coherent) (hts : ∀ t ∈ ts, t ∈ p.declared)
    (hr : r.Inv base p) (hbefore : r.walked.fault = none)
    (hfault : (ts.foldl (fun r t => walkType (fun m => retarget (some m)) t p.walkBound 0 r)
      r).walked.fault = some fault) : Stopped base p fault := by
  induction ts generalizing r with
  | nil =>
    rw [List.foldl_nil, hbefore] at hfault
    cases hfault
  | cons t ts ih =>
    rw [List.forall_mem_cons] at hts
    rw [List.foldl_cons] at hfault
    cases hmid : (walkType (fun m => retarget (some m)) t p.walkBound 0 r).walked.fault with
    | some =>
      rw [foldl_walkType_of_fault hmid] at hfault
      cases hfault
      exact walkType_stopped hp hts.1 hr hbefore (Nat.zero_le _) (Nat.le_add_left ..) hmid
    | none =>
      obtain ⟨hr₁, -, -, -⟩ := walkType_inv hp hts.1 hr rfl hmid
      exact ih hts.2 hr₁ hmid hfault

theorem walkRounds_stopped (hp : p.Coherent) (hr : r.Inv base p) (hbefore : r.walked.fault = none)
    (hfuel : p.walkBound ≤ r.seen.length + fuel)
    (hfault : (walkRounds (fun m => retarget (some m)) p.walkBound fuel r).walked.fault =
      some fault) : Stopped base p fault := by
  have hbound := (hr.length_lt hp).1
  have hseen := hr.length_seen_le
  -- by the number of rounds left; every round but the last takes up a method
  induction fuel generalizing r with
  | zero => omega
  | succ fuel ih =>
    have hdeclared : r.walked.program.declared = p.declared := (hr.steps.extends hp).declared
    rw [walkRounds, hdeclared] at hfault
    generalize hnext : p.declared.foldl
      (fun r t => walkType (fun m => retarget (some m)) t p.walkBound 0 r) r = next at hfault
    cases hmid : next.walked.fault with
    | some =>
      rw [hmid, Option.isSome_some, Bool.true_or, if_pos rfl, hmid] at hfault
      cases hfault
      rw [← hnext] at hmid
      exact foldl_walkType_stopped hp (fun _ ht => ht) hr hbefore hmid
    | none =>
      obtain ⟨hr₁, hgrows, -⟩ := foldl_walkType_inv hp (fun _ ht => ht) hr hnext hmid
      rw [hmid, Option.isSome_none, Bool.false_or] at hfault
      split at hfault
      next hstop =>
        rw [hmid] at hfault
        cases hfault
      next hgo =>
        have hmore : r.seen.length < next.seen.length := by
          rcases hgrows.more with heq | hlt
          · rw [heq] at hgo
            simp at hgo
          · exact hlt
        exact ih hr₁ hmid (by omega) hfault (hr₁.length_lt hp).1 hr₁.length_seen_le

/-- Retargeting all methods can only fail because of a fragment that cannot be renamed. -/
theorem retargetAll_stopped (hp : p.Coherent) (hremembers : Remembers base p state.cache)
    (hfault : (p.retargetAll state).fault = some fault) : Stopped base p fault :=
  walkRounds_stopped hp (.start hremembers) rfl (Nat.le_add_left ..) hfault

end

end DefaultLowering.Program
