import DefaultLowering.Proofs.Outcome

/-!
# Lowering in two phases

What lowering makes of typed bodies, said without the walk: first every body is turned over, each call
of a default method becoming a call of its twin, then the bodies of the default methods that have twins
move to them.

The walk does both at once, and a body may move while it is being walked.  The invariant is that a body,
wherever it stands, is the original one or the original one turned over (`Carried`); it holds after
every step because turnover and relocation can be exchanged, and in the end only the second is possible.

- `Step.carried`: the invariant is kept by every step;
- `lower_twoPhase`: the bodies of a lowered program.
-/

namespace DefaultLowering.Program

/-! ## Section 1: Original bodies and bodies turned over -/

/-- The statements are the original ones, or these turned over. -/
def Turned (p : Program) (self : TypeRef) (original ss : List Stmt) : Prop :=
  ss = original ∨
    (p.Served (targetsOfStmts original) ∧ ss = p.turnover.stmts self original)

section

variable {p q : Program} {self : TypeRef} {original ss : List Stmt}

theorem Turned.extends (h : p.Turned self original ss) (hext : p.Extends q) :
    q.Turned self original ss := by
  rcases h with rfl | ⟨hserved, rfl⟩
  · exact .inl rfl
  · refine .inr ⟨hext.served hserved, ?_⟩
    exact (Turnover.stmts_congr hext.isDefault (hext.turnover_twin hserved)).symm

/-- Turning over once more gives nothing new. -/
theorem Turned.turnover (h : p.Turned self original ss) (hp : p.Coherent)
    (hserved : p.Served (targetsOfStmts ss)) :
    p.Turned self original (p.turnover.stmts self ss) := by
  rcases h with rfl | ⟨hserved', rfl⟩
  · exact .inr ⟨hserved, rfl⟩
  · have hclean : p.turnover.stmts self (p.turnover.stmts self original) =
        p.turnover.stmts self original :=
      Turnover.stmts_of_clean (Turnover.clean_stmts (hp.turnover_twin hserved'))
    exact .inr ⟨hserved', hclean⟩

theorem Turned.placed (h : p.Turned self original ss) (hp : p.Coherent)
    (hplaced : StmtsPlaced p.isDefault original) : StmtsPlaced p.isDefault ss := by
  rcases h with rfl | ⟨hserved, rfl⟩
  · exact hplaced
  · exact Turnover.placed_stmts (o := p.turnover) hplaced (hp.turnover_twin hserved)

end

/-! ## Section 2: Where the body of a method stands -/

/-- The typed body of a method stands in the method, or relocated in its twin. -/
def Stands (p : Program) (m : MethodRef) (pos blockPos : Pos) (ss : List Stmt) : Prop :=
  match p.twinOf? m with
  | none => (p.method m).body = some (.code pos (some ⟨blockPos, ss⟩))
  | some t =>
    (p.method t).body = some (.code pos (some ⟨blockPos, Relocation.stmts ⟨m, t⟩ ss⟩))

/-- The body that a method had in the beginning is where it should be, turned over or not. -/
def Carried (p : Program) (m : MethodRef) (pos : Pos) (block : Block) : Prop :=
  ∃ ss, p.Turned (p.home m) block.stmts ss ∧ p.Stands m pos block.pos ss

section

variable {p q : Program} {m t : MethodRef} {pos blockPos : Pos} {ss : List Stmt}

theorem stands_of_none (h : p.twinOf? m = none) : p.Stands m pos blockPos ss ↔
    (p.method m).body = some (.code pos (some ⟨blockPos, ss⟩)) := by
  simp only [Stands, h]

theorem stands_of_some (h : p.twinOf? m = some t) : p.Stands m pos blockPos ss ↔
    (p.method t).body =
      some (.code pos (some ⟨blockPos, Relocation.stmts ⟨m, t⟩ ss⟩)) := by
  simp only [Stands, h]

/-- The body stays where it is when the method, or its twin, is not touched. -/
theorem Carried.kept {block : Block} (h : p.Carried m pos block) (hext : p.Extends q)
    (hm : m.index < p.methods.length) (htwin : q.twinOf? m = p.twinOf? m)
    (hself : p.twinOf? m = none → q.method m = p.method m)
    (hmoved : ∀ t, p.twinOf? m = some t → q.method t = p.method t) : q.Carried m pos block := by
  obtain ⟨ss, hturned, hstands⟩ := h
  refine ⟨ss, ?_, ?_⟩
  · rw [hext.home hm]
    exact hturned.extends hext
  · cases htm : p.twinOf? m with
    | none =>
      rw [stands_of_none htm] at hstands
      rw [stands_of_none (htwin.trans htm), hself htm]
      exact hstands
    | some t =>
      rw [stands_of_some htm] at hstands
      rw [stands_of_some (htwin.trans htm), hmoved t htm]
      exact hstands

/-- A default method without a twin gets one, and its body moves. -/
theorem Carried.withTwin {d : MethodRef} {block : Block} (h : p.Carried d pos block)
    (hp : p.Coherent) (hd : p.isDefault d = true) (hnone : p.staticOf? d = none) :
    (p.withTwin d).Carried d pos block := by
  have hlt := lt_of_isDefault hd
  have hext : p.Extends (p.withTwin d) := .withTwin hp.toWired hd
  have hbefore : p.twinOf? d = none := by rw [twinOf?, if_pos hd, hnone]
  have hafter : (p.withTwin d).twinOf? d = some p.next := by
    rw [twinOf_withTwin hp hd hnone, if_pos rfl]
  obtain ⟨ss, hturned, hstands⟩ := h
  rw [stands_of_none hbefore] at hstands
  refine ⟨ss, ?_, ?_⟩
  · rw [hext.home hlt]
    exact hturned.extends hext
  · rw [stands_of_some hafter, method_withTwin_next hp.toWired hlt]
    change (p.method d).body.map (Relocation.body ⟨d, p.next⟩) = _
    rw [hstands]
    rfl

/-- The body of a method, or of its twin, is turned over. -/
theorem Carried.turnover {k : MethodRef} {kpos : Pos} {block kblock : Block}
    (h : p.Carried m pos block) (hp : p.Coherent) (hm : m.index < p.methods.length)
    (hplaced : StmtsPlaced p.isDefault block.stmts)
    (hk : (p.method k).body = some (.code kpos (some kblock)))
    (hserved : p.Served (targetsOfStmts kblock.stmts))
    (hq : q = p.withBody k
      (.code kpos (some ⟨kblock.pos, p.turnover.stmts (p.home k) kblock.stmts⟩)) p.globals) :
    q.Carried m pos block := by
  have hext : p.Extends q := hq ▸ .withBody hk isUsable_turnover
  have htwin : q.twinOf? m = p.twinOf? m := by
    rw [hq] at hext ⊢
    exact twinOf_congr hext.isDefault (staticOf_withBody hk isUsable_turnover)
  have hself : (q.method k).body =
      some (.code kpos (some ⟨kblock.pos, p.turnover.stmts (p.home k) kblock.stmts⟩)) := by
    rw [hq, method_withBody_self (lt_of_body hk)]
  have hother : ∀ j, j ≠ k → q.method j = p.method j := by
    intro j hj
    rw [hq, method_withBody_ne hj]
  obtain ⟨ss, hturned, hstands⟩ := h
  cases htm : p.twinOf? m with
  | none =>
    by_cases hmk : m = k
    · -- the body stands in the method itself
      subst hmk
      rw [stands_of_none htm, hk] at hstands
      cases hstands
      refine ⟨p.turnover.stmts (p.home m) ss, ?_, ?_⟩
      · rw [hext.home hm]
        exact (hturned.turnover hp hserved).extends hext
      · rw [stands_of_none (htwin.trans htm)]
        exact hself
    · refine Carried.kept ⟨ss, hturned, hstands⟩ hext hm htwin (fun _ => hother m hmk) ?_
      rw [htm]
      nofun
  | some t =>
    by_cases htk : t = k
    · -- the body has moved to the twin, where it is turned over all the same
      subst htk
      rw [stands_of_some htm, hk] at hstands
      cases hstands
      rw [Relocation.targets_stmts] at hserved
      have hexchange : p.turnover.stmts (p.home t) (Relocation.stmts ⟨m, t⟩ ss) =
          Relocation.stmts ⟨m, t⟩ (p.turnover.stmts (p.home m) ss) :=
        Turnover.stmts_relocation (o := p.turnover) (p.home m) (p.home t) ⟨m, t⟩
          (hturned.placed hp hplaced)
      refine ⟨p.turnover.stmts (p.home m) ss, ?_, ?_⟩
      · rw [hext.home hm]
        exact (hturned.turnover hp hserved).extends hext
      · rw [stands_of_some (htwin.trans htm), ← hexchange]
        exact hself
    · refine Carried.kept ⟨ss, hturned, hstands⟩ hext hm htwin ?_ ?_
      · rw [htm]
        nofun
      · intro t' ht'
        rw [htm] at ht'
        cases ht'
        exact hother t htk

end

/-! ## Section 3: Every step carries the bodies on -/

section

variable {permit : Permit} {p q r : Program} {m : MethodRef} {pos : Pos} {block : Block}

theorem Step.carried (hstep : Step permit p q) (hp : p.Coherent) (hm : m.index < p.methods.length)
    (hplaced : StmtsPlaced p.isDefault block.stmts) (h : p.Carried m pos block) :
    q.Carried m pos block := by
  have hext := hstep.extends hp
  -- a twin is no default method, and it was there before the step
  have htwin : ∀ t, p.twinOf? m = some t →
      p.isDefault t = false ∧ t.index < p.methods.length := by
    intro t ht
    obtain ⟨hdefault, hstatic⟩ := twinOf_eq_some.mp ht
    exact ⟨hp.twin_not_default hdefault hstatic, (hp.twin m t hdefault hstatic).lt⟩
  cases hstep with
  | twin d hd hnone =>
    by_cases hmd : m = d
    · rw [hmd] at h ⊢
      exact h.withTwin hp hd hnone
    · refine h.kept hext hm ?_ ?_ ?_
      · rw [twinOf_withTwin hp hd hnone, if_neg hmd]
      · exact fun _ => method_withTwin_other hmd (ne_next_of_lt hm)
      · intro t ht
        obtain ⟨hdefault, hlt⟩ := htwin t ht
        refine method_withTwin_other ?_ (ne_next_of_lt hlt)
        rintro rfl
        rw [hd] at hdefault
        cases hdefault
  | forwarder d twin t hd hstatic ht =>
    refine h.kept hext hm ?_ ?_ ?_
    · exact twinOf_congr hext.isDefault (staticOf_withMethod hp.toWired rfl hext)
    · exact fun _ => method_withMethod_ne rfl (ne_next_of_lt hm)
    · exact fun t ht => method_withMethod_ne rfl (ne_next_of_lt (htwin t ht).2)
  | code k kpos kblock hbody hserved =>
    exact h.turnover hp hm hplaced hbody hserved rfl
  | fragment k kpos f refs name hbody =>
    -- a typed body does not stand where a fragment stands
    have hother : ∀ j c b, (p.method j).body = some (.code c b) → j ≠ k := by
      rintro j c b hj rfl
      rw [hbody] at hj
      cases hj
    refine h.kept hext hm ?_ ?_ ?_
    · refine twinOf_congr hext.isDefault (staticOf_withBody hbody ?_)
      rfl
    · intro htm
      obtain ⟨ss, -, hstands⟩ := h
      rw [stands_of_none htm] at hstands
      exact method_withBody_ne (hother m _ _ hstands)
    · intro t htm
      obtain ⟨ss, -, hstands⟩ := h
      rw [stands_of_some htm] at hstands
      exact method_withBody_ne (hother t _ _ hstands)

/-- After a run of steps from a program without twins the typed bodies are turned over or not, and
    moved if their methods have twins. -/
theorem Steps.carried (hsteps : Steps permit p q) (hp : p.Coherent) (hstatics : p.statics = [])
    (hbody : (p.method m).body = some (.code pos (some block))) : q.Carried m pos block := by
  have hlt := lt_of_body hbody
  have hbegin : p.Carried m pos block := by
    have hnone : p.twinOf? m = none := twinOf_of_statics hstatics
    exact ⟨block.stmts, .inl rfl, (stands_of_none hnone).mpr hbody⟩
  refine (hsteps.induct (P := fun q => q.Carried m pos block) hp hbegin ?_).2
  intro q r hpq hq hcarried hstep
  have hext := hpq.extends hp
  refine hstep.carried hq (Nat.lt_of_lt_of_le hlt hext.length_methods) ?_ hcarried
  rw [hext.isDefault]
  exact hp.placed m pos block hbody

/-- When nothing is left to lower, the bodies are turned over. -/
theorem Carried.of_clean (h : p.Carried m pos block) (hclean : ∀ k, p.Clean k) :
    p.Served (targetsOfStmts block.stmts) ∧
      p.Stands m pos block.pos (p.turnover.stmts (p.home m) block.stmts) := by
  obtain ⟨ss, hturned, hstands⟩ := h
  rcases hturned with rfl | ⟨hserved, rfl⟩
  · -- the body calls no default method, and so it is what the turnover makes of it
    have htargets : ∀ d ∈ targetsOfStmts block.stmts, p.isDefault d = false := by
      cases htm : p.twinOf? m with
      | none =>
        rw [stands_of_none htm] at hstands
        exact hclean m _ hstands
      | some t =>
        rw [stands_of_some htm] at hstands
        intro d hd
        refine hclean t _ hstands d ?_
        change d ∈ targetsOfStmts (Relocation.stmts ⟨m, t⟩ block.stmts)
        rw [Relocation.targets_stmts]
        exact hd
    have hsame : p.turnover.stmts (p.home m) block.stmts = block.stmts :=
      Turnover.stmts_of_clean htargets
    rw [hsame]
    refine ⟨?_, hstands⟩
    intro d hd hdefault
    rw [htargets d hd] at hdefault
    cases hdefault
  · exact ⟨hserved, hstands⟩

/-- Methods without a body get none. -/
theorem Steps.bodiless (hsteps : Steps permit p q) (hp : p.Coherent) (hm : m.index < p.methods.length)
    (hnone : (p.method m).body = none) : (q.method m).body = none := by
  refine (hsteps.induct (P := fun q => (q.method m).body = none) hp hnone ?_).2
  intro q r hpq hq hbody hstep
  have hlt := Nat.lt_of_lt_of_le hm (hpq.extends hp).length_methods
  have hother : ∀ k b, (q.method k).body = some b → m ≠ k := by
    rintro k b hk rfl
    rw [hbody] at hk
    cases hk
  cases hstep with
  | twin d hd =>
    obtain ⟨-, -, -, -, -, husable⟩ := isDefault_iff.mp hd
    have hmd : m ≠ d := by
      rintro rfl
      rw [hbody] at husable
      cases husable
    rw [method_withTwin_other hmd (ne_next_of_lt hlt)]
    exact hbody
  | forwarder =>
    rw [method_withMethod_ne rfl (ne_next_of_lt hlt)]
    exact hbody
  | code k kpos kblock hk =>
    rw [method_withBody_ne (hother k _ hk)]
    exact hbody
  | fragment k kpos f refs name hk =>
    rw [method_withBody_ne (hother k _ hk)]
    exact hbody

end

/-! ## Section 4: The specification -/

/-- The turnover of the first phase: the default methods are those of `p`, their twins those of
    `q`. -/
def phaseOne (p q : Program) : Turnover := ⟨p.isDefault, fun d => (q.twinOf? d).getD default⟩

/-- The program `q` has the methods of `p`, with their typed bodies turned over and moved. -/
structure TwoPhase (p q : Program) : Prop where
  /-- Every default method that is called has a twin. -/
  served : ∀ m pos block, (p.method m).body = some (.code pos (some block)) →
    ∀ d ∈ targetsOfStmts block.stmts, p.isDefault d = true → (q.twinOf? d).isSome = true
  /-- The body of a method without a twin is turned over. -/
  turned : ∀ m pos block, (p.method m).body = some (.code pos (some block)) →
    q.twinOf? m = none →
      (q.method m).body =
        some (.code pos (some ⟨block.pos, (phaseOne p q).stmts (p.home m) block.stmts⟩))
  /-- The body of a method with a twin is turned over and moved. -/
  moved : ∀ m pos block, (p.method m).body = some (.code pos (some block)) →
    ∀ t, q.twinOf? m = some t →
      (q.method t).body = some (.code pos (some ⟨block.pos,
        Relocation.stmts ⟨m, t⟩ ((phaseOne p q).stmts (p.home m) block.stmts)⟩))
  /-- A method with a twin is a default method, and is left with a body that delegates. -/
  delegates : ∀ m t, q.twinOf? m = some t → p.isDefault m = true ∧
    (q.method m).body = some (delegation m (p.method m) (p.home m) t)
  /-- The parameters of a twin are the receiver and copies of those of the method. -/
  params : ∀ m t, q.twinOf? m = some t → (q.method t).params =
    ⟨receiverParam, p.enclosingName m, false, (p.method m).pos⟩ :: (p.method m).params
  /-- What had no body has none. -/
  bodiless : ∀ m, m.index < p.methods.length → (p.method m).body = none →
    (q.method m).body = none

/-- A successful run on a loaded program does what the two phases do. -/
theorem lower_twoPhase {p q : Program} (hp : p.Loaded) {cache cache' : NameCache}
    {summary : Summary} (hrun : p.lower cache = ⟨q, cache', .ok summary⟩) : TwoPhase p q := by
  have hfresh := hp.fresh
  obtain ⟨hsteps, -, hlowered⟩ := lower_lowered hfresh.toCoherent hrun
  have hext := hsteps.extends hfresh.toCoherent
  have hrule : ∀ self ss, (phaseOne p q).stmts self ss = q.turnover.stmts self ss := by
    intro self ss
    refine Turnover.stmts_congr hext.isDefault.symm fun d _ hd => ?_
    have htwin : q.twinOf? d = q.staticOf? d := if_pos hd
    exact congrArg (·.getD default) htwin
  have hcarried : ∀ m pos block, (p.method m).body = some (.code pos (some block)) →
      q.Served (targetsOfStmts block.stmts) ∧
        q.Stands m pos block.pos ((phaseOne p q).stmts (p.home m) block.stmts) := by
    intro m pos block hbody
    obtain ⟨hserved, hstands⟩ :=
      (hsteps.carried hfresh.toCoherent hfresh.statics hbody).of_clean hlowered.clean
    refine ⟨hserved, ?_⟩
    rw [hrule, ← hext.home (lt_of_body hbody)]
    exact hstands
  have hdefault : ∀ m t, q.twinOf? m = some t → p.isDefault m = true ∧ q.IsTwin m t := by
    intro m t ht
    obtain ⟨hm, hstatic⟩ := twinOf_eq_some.mp ht
    exact ⟨hext.isDefault ▸ hm, hlowered.coherent.twin m t hm hstatic⟩
  refine ⟨?_, ?_, ?_, ?_, ?_, ?_⟩
  · intro m pos block hbody d hd hdefault
    rw [twinOf?, hext.isDefault, if_pos hdefault]
    exact (hcarried m pos block hbody).1 d hd (by rw [hext.isDefault]; exact hdefault)
  · intro m pos block hbody htwin
    exact (stands_of_none htwin).mp (hcarried m pos block hbody).2
  · intro m pos block hbody t htwin
    exact (stands_of_some htwin).mp (hcarried m pos block hbody).2
  · intro m t htwin
    obtain ⟨hm, his⟩ := hdefault m t htwin
    refine ⟨hm, ?_⟩
    rw [his.delegates, hext.home (lt_of_isDefault hm), hext.method m (lt_of_isDefault hm)]
    rfl
  · intro m t htwin
    obtain ⟨hm, his⟩ := hdefault m t htwin
    rw [his.params, hext.enclosingName (lt_of_isDefault hm), hext.method m (lt_of_isDefault hm)]
  · intro m hm hnone
    exact hsteps.bodiless hfresh.toCoherent hm hnone

theorem lower_twoPhase_greeting : ∃ q cache summary, greetingProgram.Loaded ∧
    greetingProgram.lower {} = ⟨q, cache, .ok summary⟩ ∧ TwoPhase greetingProgram q := by
  obtain ⟨q, cache, summary, hrun, -, -⟩ := greeting_lowers
  exact ⟨q, cache, summary, greeting_loaded, hrun, lower_twoPhase greeting_loaded hrun⟩

end DefaultLowering.Program
