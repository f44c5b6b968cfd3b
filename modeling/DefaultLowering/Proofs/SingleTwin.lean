import DefaultLowering.Proofs.Fragments
import DefaultLowering.Proofs.Idempotence
import DefaultLowering.Proofs.Offers
import DefaultLowering.Proofs.TwoPhase

/-!
# One twin for every default method that needs one

Twins are requested where forwarders are added, where calls are turned over and where linkage is, in an
order that the walk sets, and they are looked up by texts.  Still every default method has at most one
twin, all requests get the same one, and there is a twin exactly if the default method was needed in the
loaded program: by a class that implements its interface, or by a body that uses it.

- `Steps.counted`: the table of static implementations has one entry for every twin;
- `Steps.method_of_clean`: forwarders stay as they are once they are there;
- `Phases.needed_iff`: which default methods get a twin;
- `lowersTo_of_transGen`: any number of runs do what one does;
- `lower_singleTwins`: the whole statement.
-/

namespace DefaultLowering

variable {k : MethodRef} {cache cache' : NameCache}

/-! ## Section 1: The number of twins -/

/-- One more member of a list has a value. -/
theorem length_filterMap_of_new {α β : Type} {f g : α → Option β} {xs : List α} {a : α}
    (hnodup : xs.Nodup) (ha : a ∈ xs) (hf : f a = none) (hg : (g a).isSome = true)
    (hsame : ∀ x, x ≠ a → g x = f x) :
    (xs.filterMap g).length = (xs.filterMap f).length + 1 := by
  obtain ⟨b, hb⟩ := Option.isSome_iff_exists.mp hg
  induction xs with
  | nil => cases ha
  | cons x xs ih =>
    obtain ⟨hx, hxs⟩ := List.nodup_cons.mp hnodup
    by_cases hxa : x = a
    · -- the rest does not contain the member, and so it is as it was
      subst hxa
      have hrest : xs.filterMap g = xs.filterMap f := by
        refine List.filterMap_congr fun y hy => hsame y ?_
        rintro rfl
        exact hx hy
      rw [List.filterMap_cons_some hb, List.filterMap_cons_none hf, hrest]
      rfl
    · have hrest := ih hxs ((List.mem_cons.mp ha).resolve_left (Ne.symm hxa))
      cases hfx : f x with
      | none =>
        rw [List.filterMap_cons_none hfx, List.filterMap_cons_none ((hsame x hxa).trans hfx), hrest]
      | some =>
        rw [List.filterMap_cons_some hfx, List.filterMap_cons_some ((hsame x hxa).trans hfx),
          List.length_cons, hrest, List.length_cons]

namespace Program

variable {permit : Permit} {p q : Program}

/-- The table has one entry for every twin.  The list `ms` holds all default methods. -/
theorem Steps.counted (h : Steps permit p q) (hp : p.Coherent) (hstatics : p.statics = [])
    {ms : List MethodRef} (hnodup : ms.Nodup) (hms : ∀ d, p.isDefault d = true → d ∈ ms) :
    q.statics.length = (ms.filterMap q.twinOf?).length := by
  refine (h.induct (P := fun q => q.statics.length = (ms.filterMap q.twinOf?).length) hp ?_ ?_).2
  · have hnone : ms.filterMap p.twinOf? = [] :=
      List.filterMap_eq_nil_iff.mpr fun m _ => twinOf_of_statics hstatics
    rw [hstatics, hnone]
    rfl
  · intro q r hsteps hq ih hstep
    rcases hstep.twinOf_cases hq with ⟨htwin, hsame⟩ | ⟨d, rfl, hd, hnone, -⟩
    · rw [htwin, hsame]
      exact ih
    · have hmem : d ∈ ms := hms d ((hsteps.extends hp).isDefault ▸ hd)
      have hbefore : q.twinOf? d = none := by rw [twinOf?, if_pos hd, hnone]
      have hlength := length_filterMap_of_new (g := (q.withTwin d).twinOf?) hnodup hmem hbefore
        (by rw [twinOf_withTwin hq hd hnone, if_pos rfl]; rfl)
        (fun m hm => by rw [twinOf_withTwin hq hd hnone, if_neg hm])
      rw [hlength, ← ih]
      exact List.length_append

/-- Nothing is declared twice. -/
theorem Fresh.declaredMethods_nodup (hp : p.Fresh) : p.declaredMethods.Nodup := by
  unfold declaredMethods
  rw [List.nodup_flatMap]
  refine ⟨hp.methods_nodup, hp.types_nodup.imp_of_mem ?_⟩
  intro t u ht hu hne m hm hm'
  have henclosing := (hp.member t ht m hm).2
  rw [(hp.member u hu m hm').2, Option.some.injEq] at henclosing
  exact hne henclosing.symm

/-- A twin is not among the methods of a program that has no twins. -/
theorem Steps.twin_new (h : Steps permit p q) (hp : p.Coherent) (hstatics : p.statics = [])
    {d t : MethodRef} (ht : q.twinOf? d = some t) : p.methods.length ≤ t.index := by
  refine (h.induct (P := fun q => ∀ t, q.twinOf? d = some t → p.methods.length ≤ t.index) hp
    ?_ ?_).2 t ht
  · intro t ht
    rw [twinOf_of_statics hstatics] at ht
    cases ht
  · intro q r hsteps hq ih hstep t ht
    rcases hstep.twinOf_cases hq with ⟨htwin, -⟩ | ⟨d', rfl, hd', hnone, -⟩
    · rw [htwin] at ht
      exact ih t ht
    · rw [twinOf_withTwin hq hd' hnone] at ht
      by_cases hd : d = d'
      · rw [if_pos hd] at ht
        cases ht
        exact (hsteps.extends hp).length_methods
      · rw [if_neg hd] at ht
        exact ih t ht

/-! ## Section 2: Methods that stay as they are -/

/-- Nothing is done to a method that is no default method and uses none. -/
theorem Step.method_of_clean (h : Step permit p q) (hlt : k.index < p.methods.length)
    (hnot : p.isDefault k = false) (hclean : p.Clean k) :
    q.method k = p.method k := by
  cases h with
  | twin d hd =>
    refine method_withTwin_other ?_ (ne_next_of_lt hlt)
    rintro rfl
    rw [hnot] at hd
    cases hd
  | forwarder => exact method_withMethod_ne rfl (ne_next_of_lt hlt)
  | code m pos block hbody =>
    by_cases hkm : k = m
    · subst hkm
      rw [withBody_of_clean hbody hclean]
    · exact method_withBody_ne hkm
  | fragment m pos f refs name hbody hserved hname hlinked =>
    refine method_withBody_ne ?_
    rintro rfl
    exact hlinked (linkRenames_eq_nil.mpr (hclean _ hbody))

theorem Steps.method_of_clean (h : Steps permit p q) (hp : p.Coherent)
    (hlt : k.index < p.methods.length) (hnot : p.isDefault k = false) (hclean : p.Clean k) :
    q.method k = p.method k := by
  refine (h.induct (P := fun q => q.method k = p.method k) hp rfl ?_).2
  intro q r hsteps hq ih hstep
  have hext := hsteps.extends hp
  rw [← ih]
  refine hstep.method_of_clean (Nat.lt_of_lt_of_le hlt hext.length_methods) ?_
    (hsteps.clean hp hlt hclean)
  rw [hext.isDefault]
  exact hnot

/-- A forwarder uses the twin alone. -/
theorem ForwarderOf.clean {o : MethodRef × TypeRef} (h : ForwarderOf p q o k) (hq : q.Coherent) :
    q.Clean k := by
  obtain ⟨twin, htwin, hbody⟩ := h.body
  obtain ⟨hdefault, hstatic⟩ := twinOf_eq_some.mp htwin
  intro b hb d hd
  rw [hbody] at hb
  cases hb
  have htargets : d ∈ [twin] := by
    rw [← targets_delegatingBody k (q.method k) o.2 twin]
    exact hd
  rw [List.mem_singleton.mp htargets]
  exact hq.twin_not_default hdefault hstatic

/-- Every new method of a lowered program is a twin, or a forwarder in a class. -/
theorem Phases.created (h : Phases p cache q cache') (hp : p.Fresh)
    (hge : p.methods.length ≤ k.index) (hlt : k.index < q.methods.length) :
    (∃ d, q.twinOf? d = some k) ∨
      ∃ d c, (p.type c).isInterface = false ∧ ForwarderOf p q (d, c) k := by
  have hforwarded := h.forwarding.coherent hp.toCoherent
  have hext := h.forwarding.extends hp.toCoherent
  have hext' := h.walking.extends hforwarded
  have htwin : ∀ r : Program, r.Extends q →
      (∃ d, r.isDefault d = true ∧ r.staticOf? d = some k) → ∃ d, q.twinOf? d = some k := by
    rintro r hrq ⟨d, hd, hk⟩
    exact ⟨d, twinOf_eq_some.mpr ⟨hrq.isDefault ▸ hd, hrq.staticOf d k hd hk⟩⟩
  -- what the walk adds are twins, so a forwarder was there before the walk
  by_cases hk : k.index < p.forwarded.methods.length
  · rcases h.forwarding.created hp.toCoherent hge hk with hcreated | ⟨-, hclass⟩
    · exact .inl (htwin _ hext' hcreated)
    · obtain ⟨hhome, -, hmem⟩ := hforwarded.home_declared hk
      have hclass' : (p.type (p.forwarded.home k)).isInterface = false := by
        rw [DeclaredType.isInterface, ← hext.typeKind]
        exact hclass
      have hadded : p.AddedTo p.forwarded (p.forwarded.home k) k := by
        refine ⟨hmem, fun hold => ?_⟩
        rw [hext.declared] at hhome
        exact absurd (hp.member _ hhome k hold).1 (Nat.not_lt.mpr hge)
      obtain ⟨-, d, -, hforwarder⟩ :=
        (Forwarding.run_exact hp {}).forwarder_of_added hclass' hadded
      refine .inr ⟨d, p.forwarded.home k, hclass', hforwarder.extends hext' ?_⟩
      refine h.walking.method_of_clean hforwarded hk ?_ (hforwarder.clean hforwarded)
      rw [hext.isDefault]
      exact isDefault_of_le hge
  · rcases h.walking.created hforwarded (Nat.le_of_not_lt hk) hlt with hcreated | ⟨hfalse, -⟩
    · exact .inl (htwin q (.refl q) hcreated)
    · exact hfalse.elim

/-! ## Section 3: Which default methods get a twin -/

/-- The default methods of a successful run that get a twin are those that are needed. -/
theorem Phases.needed_iff (h : Phases p cache q cache') (hp : p.Fresh) {d : MethodRef}
    (hd : p.isDefault d = true) :
    (q.twinOf? d).isSome = true ↔ p.implementors (p.home d) ≠ [] ∨ p.Uses d := by
  have hcoherent := hp.toCoherent
  have hforwarded := h.forwarding.coherent hcoherent
  have hext := h.forwarding.extends hcoherent
  have hext' := h.steps.extends hcoherent
  constructor
  · intro hsome
    rcases h.walking.permitted hforwarded hsome with hbefore | huses
    · -- the twin was made for a forwarder
      rcases h.forwarding.permitted hcoherent hbefore with hnone | himplementors
      · rw [twinOf_of_statics hp.statics] at hnone
        cases hnone
      · exact .inl himplementors
    · -- the twin was made for a body, and forwarders have not added uses
      exact .inr (h.forwarding.uses hcoherent hd (huses (hext.isDefault ▸ hd)))
  · intro hneeded
    have htwin : q.twinOf? d = q.staticOf? d := by rw [twinOf?, hext'.isDefault, if_pos hd]
    rw [htwin]
    rcases hneeded with himplementors | ⟨m, b, hbody, hmem⟩
    · obtain ⟨c, hc⟩ := List.exists_mem_of_ne_nil _ himplementors
      refine (h.lowered.covered d (hext'.isDefault ▸ hd) c ?_).1
      rw [hext'.home (lt_of_isDefault hd), hext'.implementors]
      exact hc
    · -- the body that uses the method has been turned over
      rcases b with ⟨pos, _ | block⟩ | ⟨pos, _ | f, refs⟩
      · cases hmem
      · have hserved := ((h.steps.carried hcoherent hp.statics hbody).of_clean h.lowered.clean).1
        exact hserved d hmem (hext'.isDefault ▸ hd)
      · cases hp.fragment m pos none refs hbody
      · obtain ⟨t, -, ht, -⟩ := (h.lodged hp hbody).1 d hmem (hext'.isDefault ▸ hd)
        rw [ht]
        rfl

/-! ## Section 4: Bodies and their twins -/

theorem turnover_target {targets : List MethodRef} (hserved : p.Served targets) :
    ∀ d ∈ targets, p.turnover.target d = p.successor d := by
  intro d hd
  unfold Turnover.target successor twinOf?
  by_cases hdefault : p.isDefault d = true
  · obtain ⟨t, ht⟩ := Option.isSome_iff_exists.mp (hserved d hd hdefault)
    have hisDefault : p.turnover.isDefault d = true := hdefault
    rw [if_pos hisDefault, if_pos hdefault, ht]
    simp only [turnover, ht, Option.getD_some]
  · have hisDefault : ¬p.turnover.isDefault d = true := hdefault
    rw [if_neg hisDefault, if_neg hdefault]
    rfl

/-- The calls of a typed body after a successful run. -/
theorem Phases.calls (h : Phases p cache q cache') (hp : p.Fresh) {m : MethodRef} {pos : Pos}
    {block : Block} (hbody : (p.method m).body = some (.code pos (some block))) :
    ∃ block', (q.method (q.successor m)).body = some (.code pos (some block')) ∧
      targetsOfStmts block'.stmts = (targetsOfStmts block.stmts).map q.successor := by
  obtain ⟨hserved, hstands⟩ :=
    (h.steps.carried hp.toCoherent hp.statics hbody).of_clean h.lowered.clean
  have htargets : targetsOfStmts (q.turnover.stmts (q.home m) block.stmts) =
      (targetsOfStmts block.stmts).map q.successor := by
    rw [Turnover.targets_stmts]
    exact List.map_congr_left (turnover_target hserved)
  cases htm : q.twinOf? m with
  | none =>
    rw [stands_of_none htm] at hstands
    rw [successor_of_none htm]
    exact ⟨_, hstands, htargets⟩
  | some =>
    rw [stands_of_some htm] at hstands
    rw [successor_of_twin htm]
    refine ⟨_, hstands, ?_⟩
    rw [Relocation.targets_stmts]
    exact htargets

theorem target_relink_eq {name : MethodRef → String} {r : Linkage} {refs : List Linkage}
    (hserved : p.Served (linkTargets refs)) (hr : r ∈ refs) :
    (p.relink name r).target = r.target.map p.successor := by
  unfold relink
  cases hd : p.linkedDefault r with
  | some d =>
    obtain ⟨htarget, hdefault⟩ := linkedDefault_eq_some.mp hd
    obtain ⟨t, ht⟩ := Option.isSome_iff_exists.mp
      (hserved d (mem_linkTargets.mpr ⟨r, hr, htarget⟩) hdefault)
    simp only [htarget, ht, Option.map_some, successor, twinOf?, hdefault, if_true, Option.getD_some]
  | none =>
    cases htarget : r.target with
    | none => rfl
    | some d =>
      have hnot := linkedDefault_eq_none.mp hd d htarget
      simp only [Option.map_some, successor, twinOf?, hnot, Bool.false_eq_true, if_false,
        Option.getD_none]

/-- The linkage of a fragment after a successful run. -/
theorem Phases.linkage (h : Phases p cache q cache') (hp : p.Fresh) {m : MethodRef} {pos : Pos}
    {f : Fragment.Function} {refs : List Linkage} (hbody : p.Native m pos f refs) :
    ∃ g, q.Native (q.successor m) pos g (q.twinLinkage cache' refs) ∧
      ∀ r ∈ refs, (q.relink (q.twinIdent cache') r).target = r.target.map q.successor := by
  obtain ⟨hknown, -, g, hnative, -⟩ := h.lodged hp hbody
  refine ⟨g, hnative, fun r hr => target_relink_eq (fun d hd hdefault => ?_) hr⟩
  obtain ⟨t, -, ht, -⟩ := hknown d hd hdefault
  rw [ht]
  rfl

/-! ## Section 5: The specification -/

/-- One successful run, with any name cache. -/
def LowersTo (p q : Program) : Prop :=
  ∃ cache cache' summary, p.lower cache = ⟨q, cache', .ok summary⟩

/-- Any number of successful runs do what the first one does. -/
theorem lowersTo_of_transGen (hp : p.Coherent) (h : Relation.TransGen LowersTo p q) :
    LowersTo p q := by
  induction h with
  | single hrun => exact hrun
  | tail _ hrun ih =>
    obtain ⟨cache, cache', summary, hfirst⟩ := ih
    obtain ⟨again, again', summary', hnext⟩ := hrun
    obtain ⟨-, -, hlowered⟩ := lower_lowered hp hfirst
    rw [lower_of_isLowered hlowered] at hnext
    cases hnext
    exact ⟨cache, cache', summary, hfirst⟩

/-- The default methods of `p` that need a twin have one in `q`, and everything refers to it. -/
structure SingleTwins (p q : Program) : Prop where
  /-- A default method has a twin exactly if some class implements its interface, or if some body of
      `p` calls it or is linked to it. -/
  needed : ∀ d, p.isDefault d = true →
    ((q.twinOf? d).isSome = true ↔ p.implementors (p.home d) ≠ [] ∨ p.Uses d)
  /-- Only default methods have a twin, which is a new method of the same interface and no default
      method itself. -/
  twin : ∀ d t, q.twinOf? d = some t → p.isDefault d = true ∧ q.isDefault t = false ∧
    p.methods.length ≤ t.index ∧ (q.method t).enclosing = (p.method d).enclosing
  distinct : ∀ d d' t, q.twinOf? d = some t → q.twinOf? d' = some t → d = d'
  /-- Every new method is the twin of a default method, or a forwarder in a class, which passes
      everything on to the twin of a default method. -/
  created : ∀ k, p.methods.length ≤ k.index → k.index < q.methods.length →
    (∃ d, q.twinOf? d = some k) ∨
      ∃ d c, (p.type c).isInterface = false ∧ ForwarderOf p q (d, c) k
  /-- The calls of a typed body are calls of the twins, and the other calls are kept. -/
  calls : ∀ m pos block, (p.method m).body = some (.code pos (some block)) →
    ∃ block', (q.method (q.successor m)).body = some (.code pos (some block')) ∧
      targetsOfStmts block'.stmts = (targetsOfStmts block.stmts).map q.successor
  /-- The same holds of the linkage entries of a fragment, among which entries with a repeated
      identifier are dropped. -/
  linkage : ∀ m pos f refs, p.Native m pos f refs → ∃ g name,
    q.Native (q.successor m) pos g (distinctLinkage (refs.map (q.relink name))) ∧
      ∀ r ∈ refs, (q.relink name r).target = r.target.map q.successor
  /-- A default method passes everything on to its twin. -/
  delegates : ∀ d t, q.twinOf? d = some t →
    (q.method d).body = some (delegation d (p.method d) (p.home d) t)
  /-- The table of static implementations has one entry for every twin. -/
  counted : q.statics.length = (p.declaredMethods.filterMap q.twinOf?).length

theorem Phases.singleTwins (h : Phases p cache q cache') (hp : p.Fresh) : SingleTwins p q := by
  have hcoherent := hp.toCoherent
  have hext := h.steps.extends hcoherent
  have htwin : ∀ d t, q.twinOf? d = some t →
      q.isDefault d = true ∧ q.staticOf? d = some t ∧ q.IsTwin d t := by
    intro d t ht
    obtain ⟨hd, hstatic⟩ := twinOf_eq_some.mp ht
    exact ⟨hd, hstatic, h.lowered.coherent.twin d t hd hstatic⟩
  refine ⟨fun d => h.needed_iff hp, ?_, ?_, fun k => h.created hp, fun m pos block => h.calls hp,
    ?_, ?_, ?_⟩
  · intro d t ht
    obtain ⟨hd, hstatic, his⟩ := htwin d t ht
    refine ⟨hext.isDefault ▸ hd, h.lowered.coherent.twin_not_default hd hstatic,
      h.steps.twin_new hcoherent hp.statics ht, ?_⟩
    rw [his.enclosing, hext.enclosing (lt_of_isDefault (hext.isDefault ▸ hd))]
  · intro d d' t ht ht'
    obtain ⟨hd, hstatic, -⟩ := htwin d t ht
    obtain ⟨hd', hstatic', -⟩ := htwin d' t ht'
    exact h.lowered.coherent.twin_inj d d' t hd hd' hstatic hstatic'
  · intro m pos f refs hbody
    obtain ⟨g, hnative, htargets⟩ := h.linkage hp hbody
    exact ⟨g, q.twinIdent cache', hnative, htargets⟩
  · intro d t ht
    obtain ⟨hd, -, his⟩ := htwin d t ht
    have hlt := lt_of_isDefault (hext.isDefault ▸ hd)
    rw [his.delegates, hext.home hlt, hext.method d hlt]
    rfl
  · exact h.steps.counted hcoherent hp.statics hp.declaredMethods_nodup fun d hd =>
      hp.mem_declaredMethods (lt_of_isDefault hd)

/-- After any number of successful runs on a loaded program every default method that needs a twin has
    exactly one, nothing else has one, and all calls, linkage entries, forwarders and delegating bodies
    refer to it. -/
theorem lower_singleTwins (hp : p.Loaded) (hruns : Relation.TransGen LowersTo p q) :
    SingleTwins p q := by
  have hfresh := hp.fresh
  obtain ⟨cache, cache', summary, hrun⟩ := lowersTo_of_transGen hfresh.toCoherent hruns
  exact (lower_phases hfresh.toCoherent hrun).singleTwins hfresh

/-- Two runs on the small program, where every default method gets a twin. -/
theorem lower_singleTwins_greeting : ∃ q, greetingProgram.Loaded ∧
    Relation.TransGen LowersTo greetingProgram q ∧ q.statics.length = 3 ∧
      SingleTwins greetingProgram q := by
  have hcount : (greetingProgram.lower {}).program.statics.length = 3 := by decide +kernel
  obtain ⟨q, cache, summary, hrun, -, -⟩ := greeting_lowers
  rw [hrun] at hcount
  obtain ⟨-, -, hlowered⟩ := lower_lowered greeting_loaded.fresh.toCoherent hrun
  have hfirst : LowersTo greetingProgram q := ⟨{}, cache, summary, hrun⟩
  have hsecond : LowersTo q q := ⟨cache, _, _, lower_of_isLowered hlowered cache⟩
  have hruns := (Relation.TransGen.single hfirst).tail hsecond
  exact ⟨q, greeting_loaded, hruns, hcount, lower_singleTwins greeting_loaded hruns⟩

end Program

end DefaultLowering
