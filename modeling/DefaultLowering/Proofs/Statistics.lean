import DefaultLowering.Proofs.Admission
import DefaultLowering.Proofs.Completion
import DefaultLowering.Proofs.Recording
import DefaultLowering.Proofs.SingleTwin
import Mathlib.Algebra.BigOperators.Group.Finset.Basic

/-!
# The counts of a run

What a run counts is what there was to retarget before it.  A body may move to a twin before it is
walked or while it is, and the method that it has left is walked as well.  So nothing is said of single
walks: the counts and what is left to retarget have the same sum at any time, and nothing is left in the
end.

- `total`: what there is to retarget in all bodies;
- `Steps.total`, `Unloads.total`: twins and forwarders leave it as it is, and a body that is turned over
  takes off as much as is counted for it;
- `lower_counts`: the counts of a successful run are the total of the program that it began with;
- `Tally`: calls and names of default methods, counted in a list of bodies;
- `lower_statistics`: the counts are the tally of the bodies that were loaded, and a run says that it
  has changed the program exactly if it has.
-/

namespace DefaultLowering.Program

/-! ## Section 1: What is left to do -/

/-- What there is to retarget in all bodies. -/
def total (p : Program) : RetargetCounts := ∑ i ∈ Finset.range p.methods.length, p.load ⟨i⟩

section

variable {p q r : Program}

/-- One method and the others. -/
theorem total_eq_add {m : MethodRef} (h : m.index < p.methods.length) :
    p.total = p.load m + ∑ i ∈ (Finset.range p.methods.length).erase m.index, p.load ⟨i⟩ :=
  (Finset.add_sum_erase _ (fun i => p.load ⟨i⟩) (Finset.mem_range.mpr h)).symm

theorem total_of_clean (h : ∀ m, p.Clean m) : p.total = 0 :=
  Finset.sum_eq_zero fun i _ => load_of_clean (h ⟨i⟩)

theorem total_withTwin (hp : p.Coherent) {d : MethodRef} (hd : p.isDefault d = true)
    (hnone : p.staticOf? d = none) (hload : (p.withTwin d).load p.next = p.load d) :
    (p.withTwin d).total = p.total := by
  have hlt := lt_of_isDefault hd
  have hext : p.Extends (p.withTwin d) := .withTwin hp.toWired hd
  -- the method itself only passes everything on
  have hself : (p.withTwin d).load d = 0 := by
    refine load_of_clean ((hp.withTwin hd hnone).clean_of_twin (t := p.next) ?_ ?_)
    · rw [hext.isDefault]
      exact hd
    · rw [staticOf_withTwin hp hd hnone hd, if_pos rfl]
  have hothers : ∀ i ∈ (Finset.range p.methods.length).erase d.index,
      (p.withTwin d).load ⟨i⟩ = p.load ⟨i⟩ := by
    intro i hi
    obtain ⟨hne, hmem⟩ := Finset.mem_erase.mp hi
    refine load_congr hext.isDefault (method_withTwin_other ?_ ?_)
    · rintro rfl
      exact hne rfl
    · exact ne_next_of_lt (Finset.mem_range.mp hmem)
  -- so the twin stands for the method in the sum
  have hold := Finset.add_sum_erase _ (fun i => (p.withTwin d).load ⟨i⟩) (Finset.mem_range.mpr hlt)
  calc (p.withTwin d).total
      = (∑ i ∈ Finset.range p.methods.length, (p.withTwin d).load ⟨i⟩) +
          (p.withTwin d).load p.next := by
        rw [total, length_methods_withTwin, Finset.sum_range_succ]
        rfl
    _ = (∑ i ∈ (Finset.range p.methods.length).erase d.index, p.load ⟨i⟩) + p.load d := by
        rw [← hold, hself, zero_add, Finset.sum_congr rfl hothers, hload]
    _ = p.total := by rw [total_eq_add hlt, add_comm]

theorem total_withForwarder (hp : p.Coherent) {d twin : MethodRef} {t : TypeRef}
    (hd : p.isDefault d = true) (htwin : p.staticOf? d = some twin) (ht : t ∈ p.declared)
    (hclass : (p.type t).isInterface = false) :
    (p.withMethod t (Forwarding.forwarderFor p t d twin p.next)).total = p.total := by
  have hx : (Forwarding.forwarderFor p t d twin p.next).id = none := rfl
  have hext : p.Extends (p.withMethod t (Forwarding.forwarderFor p t d twin p.next)) :=
    .withMethod hp.toWired ht hx (.inr hclass)
  -- a forwarder calls nothing but the twin
  have hnew : (p.withMethod t (Forwarding.forwarderFor p t d twin p.next)).load p.next = 0 := by
    refine load_of_clean fun b hb k hk => ?_
    rw [method_withMethod_self hx] at hb
    rw [hext.isDefault]
    cases hb
    rw [targets_passingOn_params, List.mem_singleton] at hk
    rw [hk]
    exact hp.twin_not_default hd htwin
  have hothers : ∀ i ∈ Finset.range p.methods.length,
      (p.withMethod t (Forwarding.forwarderFor p t d twin p.next)).load ⟨i⟩ = p.load ⟨i⟩ :=
    fun i hi => load_congr hext.isDefault
      (method_withMethod_ne hx (ne_next_of_lt (Finset.mem_range.mp hi)))
  rw [total, length_methods_withMethod hx, Finset.sum_range_succ, Finset.sum_congr rfl hothers]
  show _ + (p.withMethod t (Forwarding.forwarderFor p t d twin p.next)).load p.next = _
  rw [hnew, add_zero]
  rfl

/-- A body that is turned over has been counted. -/
theorem Unloads.total {before after : RetargetCounts} (h : p.Unloads before q after)
    (hdefault : q.isDefault = p.isDefault) : after + q.total = before + p.total := by
  obtain ⟨k, c, globals, hlt, rfl, hclean, rfl⟩ := h
  have hlength : (p.withBody k c globals).methods.length = p.methods.length :=
    length_methods_withBody
  have hothers : ∀ i ∈ (Finset.range p.methods.length).erase k.index,
      (p.withBody k c globals).load ⟨i⟩ = p.load ⟨i⟩ := by
    intro i hi
    refine load_congr hdefault (method_withBody_ne ?_)
    rintro rfl
    exact (Finset.mem_erase.mp hi).1 rfl
  rw [total_eq_add (hlength ▸ hlt), load_of_clean hclean, zero_add, hlength,
    Finset.sum_congr rfl hothers, add_assoc, ← total_eq_add hlt]

/-! ## Section 2: What a run counts -/

/-- The receiver of a twin is no name of a default method. -/
theorem Steps.work_relocation {permit : Permit} (hsteps : Steps permit p q) (hp : p.Fresh)
    {m : MethodRef} {b : Body} (hbody : (q.method m).body = some b) (r : Relocation) :
    q.work (r.body b) = q.work b := by
  refine Program.work_relocation r fun pos f refs hb hlinked => ?_
  rw [hb] at hbody
  -- a table that still has a default method in it is the table of a loaded fragment
  have hmembers : ∀ r ∈ refs, Fragment.isMemberIdent r.ident = true := by
    rcases hsteps.original hp.toCoherent hbody (by simpa using hlinked) with
      hsame | ⟨k, f', -, horiginal, -⟩
    · exact hp.isMemberIdent hsame
    · exact hp.isMemberIdent horiginal
  rw [← isSome_lookup_linkRenames fun _ => "", lookup_linkRenames_receiver hmembers]
  rfl

/-- Steps that turn no body over leave as much to do as there was. -/
theorem Steps.total {permit : Permit} {base : NameCache} (hp : p.Fresh)
    (hsteps : Steps (.any base) p q) (h : Steps permit q r) (hwithin : permit.Within (.any base))
    (hbodies : ¬permit.bodies) : r.total = q.total := by
  have hq := hsteps.coherent hp.toCoherent
  refine (h.induct (P := fun r => r.total = q.total) hq rfl ?_).2
  intro q' r' hqq' hq' ih hstep
  rw [← ih]
  -- of the four kinds of steps, only twins move a body
  cases hstep with
  | twin d hd hnone =>
    refine total_withTwin hq' hd hnone ?_
    have hext : q'.Extends (q'.withTwin d) := .withTwin hq'.toWired hd
    rw [load, load, method_withTwin_next hq'.toWired (lt_of_isDefault hd)]
    show ((q'.method d).body.map _).elim 0 _ = _
    cases hbody : (q'.method d).body with
    | none => rfl
    | some b =>
      show (q'.withTwin d).work _ = q'.work b
      have hall : Steps (.any base) p q' := hsteps.trans (hqq'.mono hwithin)
      rw [work_congr hext.isDefault, hall.work_relocation hp hbody]
  | forwarder d twin t hd htwin ht hclass => exact total_withForwarder hq' hd htwin ht hclass
  | code m pos block hbody hserved hpermit => exact absurd hpermit hbodies
  | fragment m pos f refs name hbody hserved hname hlinked hsafe hpermit =>
    exact absurd hpermit hbodies

/-- What holds while the methods of a program are walked: what was counted and what is left have the
    same sum. -/
structure Balanced (base : NameCache) (p : Program) (sum : RetargetCounts) (w : Walked Retargeting) :
    Prop where
  steps : Steps (.any base) p w.program
  remembers : Remembers base w.program w.user.cache
  sum : w.user.counts + w.program.total = sum

/-- The walk over one method. -/
theorem Balanced.walkMethod {base : NameCache} {sum : RetargetCounts} {w : Walked Retargeting}
    (hp : p.Fresh) (h : Balanced base p sum w) {m : MethodRef}
    (hfault : (walkMethod (retarget (some m)) m w).fault = none) :
    Balanced base p sum (Program.walkMethod (retarget (some m)) m w) := by
  have hw := h.steps.coherent hp.toCoherent
  obtain ⟨hsteps, hremembers, -, -⟩ := walkMethod_steps hw h.remembers hfault
  refine ⟨h.steps.trans (hsteps.mono Permit.retargeting_within_any), hremembers, ?_⟩
  rw [← h.sum]
  cases hbody : (w.program.method m).body with
  | none =>
    have hsame : Program.walkMethod (retarget (some m)) m w = w := by
      simp only [Program.walkMethod, hbody]
    rw [hsame]
  | some =>
    -- first the twins that the body needs are made, then the body is turned over
    obtain ⟨r, hmade, hunloads⟩ := walkMethod_unloads hw h.remembers hbody hfault
    have hdefault := (hsteps.extends hw).isDefault.trans (hmade.extends hw).isDefault.symm
    rw [hunloads.total hdefault, Steps.total hp h.steps hmade
      (Permit.within_any fun _ _ _ => False.elim) id]

/-- Retargeting all methods counts all that there is. -/
theorem retargetAll_counts (hp : p.Fresh) {state : Retargeting}
    (hsteps : Steps (.any state.cache) p q) (hfault : (q.retargetAll state).fault = none) :
    (q.retargetAll state).user.counts = state.counts + q.total := by
  obtain ⟨r, hdone, hwalked, -⟩ := retargetAll_ends hp hsteps
  have hremembers := remembers_self state.cache q
  have hbalanced : r.walked.fault = none →
      Balanced state.cache p (state.counts + q.total) r.walked := by
    refine hdone.invariant (I := fun r => r.walked.fault = none →
      Balanced state.cache p (state.counts + q.total) r.walked) ?_ ?_
    · intro r m hbefore hr hafter
      unfold takeUp at hafter ⊢
      split at hafter
      next hseen =>
        -- a method that was taken up before is left alone
        rw [if_pos hseen]
        exact hr hbefore
      next hseen =>
        rw [if_neg hseen]
        exact (hr hbefore).walkMethod hp hafter
    · exact fun _ => ⟨hsteps, hremembers, rfl⟩
  rw [hwalked] at hbalanced
  obtain ⟨-, -, hclean⟩ := retargetAll_steps (hsteps.coherent hp.toCoherent) hremembers hfault
  have hsum := (hbalanced hfault).sum
  rwa [total_of_clean hclean, add_zero] at hsum

/-- A successful run counts what there was to retarget. -/
theorem lower_counts (hp : p.Fresh) {cache cache' : NameCache} {summary : Summary}
    (hrun : p.lower cache = ⟨q, cache', .ok summary⟩) : summary.counts = p.total := by
  obtain ⟨hsteps, -⟩ := Forwarding.run_covered hp.toCoherent {}
  have hstart : Steps (.any cache) p p := .refl
  have htotal : (Forwarding.run p {}).program.total = p.total :=
    Steps.total hp hstart hsteps Forwarding.permit_within_any id
  obtain ⟨-, _, hfault, -, -, rfl, rfl⟩ := lower_eq_ok hrun
  have hcounts := retargetAll_counts hp (hsteps.mono Forwarding.permit_within_any) hfault
  exact hcounts.trans (by rw [htotal]; exact zero_add _)

end

/-! ## Section 3: Calls and names of default methods -/

/-- The method that a node calls. -/
def Node.callee? : Node → Option MethodRef
  | .expr (.call _ _ target _) => some target
  | _ => none

/-- The identifier is that of a default method. -/
def namesDefault (p : Program) (ident : String) : Bool := (p.denoted ident).any p.isDefault

/-- The bodies of the methods that are declared. -/
def bodies (p : Program) : List Body := p.declaredMethods.filterMap fun m => (p.method m).body

/-- The counts are exact for some bodies. -/
structure Tally (p : Program) (bs : List Body) (c : RetargetCounts) : Prop where
  /-- The nodes that call a default method. -/
  calls : c.calls = (bs.flatMap fun b => b.nodes fun _ => true).countP fun n =>
    n.callee?.any p.isDefault
  /-- The invocations of names of default methods. -/
  invocations : c.invocations = ((bs.filterMap Body.fragment?).flatMap fun f => f.invoked).countP
    fun i => p.namesDefault i.1
  /-- All names of default methods, be they invoked or not. -/
  names : c.references + c.invocations =
    ((bs.filterMap Body.fragment?).flatMap fun f => f.idents).countP p.namesDefault
  /-- The fragments with at least one such name. -/
  fragments : c.fragments = (bs.filterMap Body.fragment?).countP fun f => f.idents.any p.namesDefault

section

variable {p q : Program}

theorem namesDefault_iff {ident : String} : p.namesDefault ident = true ↔ p.NamesDefault ident := by
  simp [namesDefault, NamesDefault, Option.any_eq_true]

namespace Tally

variable {bs bs' : List Body} {c c' : RetargetCounts}

theorem nil : p.Tally [] 0 := ⟨rfl, rfl, rfl, rfl⟩

theorem append (h : p.Tally bs c) (h' : p.Tally bs' c') : p.Tally (bs ++ bs') (c + c') := by
  refine ⟨?_, ?_, ?_, ?_⟩
  · rw [List.flatMap_append, List.countP_append, ← h.calls, ← h'.calls]
    rfl
  · rw [List.filterMap_append, List.flatMap_append, List.countP_append, ← h.invocations,
      ← h'.invocations]
    rfl
  · rw [List.filterMap_append, List.flatMap_append, List.countP_append, ← h.names, ← h'.names]
    show c.references + c'.references + (c.invocations + c'.invocations) = _
    omega
  · rw [List.filterMap_append, List.countP_append, ← h.fragments, ← h'.fragments]
    rfl

end Tally

theorem Expr.targets_eq_filterMap (x : Expr) :
    x.targets = (x.nodes fun _ => true).filterMap Node.callee? := by
  induction x with
  | call pos receiver target args ihReceiver ihArgs =>
    have hargs : targetsOf args = (nodesOf (fun _ => true) args).filterMap Node.callee? := by
      rw [nodesOf_eq_flatMap, targetsOf_eq_flatMap, List.filterMap_flatMap]
      exact List.flatMap_congr ihArgs
    rw [Expr.targets, ihReceiver, hargs, ← List.filterMap_append]
    rfl
  | _ => rfl

theorem Stmt.targets_eq_filterMap (s : Stmt) :
    s.targets = (s.nodes fun _ => true).filterMap Node.callee? := by
  induction s with
  | absent => rfl
  | block pos ss ih =>
    have hstmts : targetsOfStmts ss = (nodesOfStmts (fun _ => true) ss).filterMap Node.callee? := by
      rw [nodesOfStmts_eq_flatMap, targetsOfStmts_eq_flatMap, List.filterMap_flatMap]
      exact List.flatMap_congr ih
    exact hstmts
  | ret pos x => exact x.targets_eq_filterMap
  | expr pos x => exact x.targets_eq_filterMap
  | decl pos v init => exact init.targets_eq_filterMap

theorem tally_code (pos : Pos) (block : Option Block) :
    p.Tally [.code pos block] (p.work (.code pos block)) := by
  refine ⟨?_, rfl, rfl, rfl⟩
  have htargets : (Body.code pos block).targets =
      ((Body.code pos block).nodes fun _ => true).filterMap Node.callee? := by
    cases block with
    | none => rfl
    | some block => exact Stmt.targets_eq_filterMap (.block block.pos block.stmts)
  show (Body.code pos block).targets.countP p.isDefault = _
  rw [List.flatMap_singleton, htargets, List.countP_filterMap]
  refine List.countP_congr fun n _ => ?_
  cases n.callee? <;> simp

section fragment

variable {m : MethodRef} {pos : Pos} {f : Fragment.Function} {refs : List Linkage}

/-- In a loaded fragment, the names that are linked to default methods are those of default methods. -/
theorem Fresh.linksDefault_eq (hp : p.Fresh) (hbody : p.Native m pos f refs) {ident : String}
    (hident : ident ∈ f.idents) : p.linksDefault refs ident = p.namesDefault ident := by
  rw [Bool.eq_iff_iff, namesDefault_iff, ← isSome_lookup_linkRenames fun _ => ""]
  exact hp.lookup_linkRenames_iff hbody rfl ident hident

/-- A fragment is linked to a default method only by a name. -/
theorem any_linkTargets_eq (hp : p.Fresh) (hbody : p.Native m pos f refs) {tpos : Pos}
    (htable : Description.Tabulates p.denoted tpos f refs) :
    (linkTargets refs).any p.isDefault = f.idents.any p.namesDefault := by
  rw [Bool.eq_iff_iff, List.any_eq_true, List.any_eq_true]
  constructor
  · rintro ⟨d, hd, hdefault⟩
    obtain ⟨r, hr, htarget⟩ := mem_linkTargets.mp hd
    rw [htable.entries] at hr
    obtain ⟨ident, hident, rfl⟩ := List.mem_map.mp hr
    have hmember := (List.mem_filter.mp (List.mem_eraseDups.mp hident)).1
    exact ⟨ident, (List.mem_filter.mp hmember).1, namesDefault_iff.mpr ⟨d, htarget, hdefault⟩⟩
  · rintro ⟨ident, hident, hnames⟩
    rw [← hp.linksDefault_eq hbody hident, linksDefault, List.any_eq_true] at hnames
    obtain ⟨r, hr, hlinked⟩ := hnames
    rw [Bool.and_eq_true] at hlinked
    obtain ⟨d, hd⟩ := Option.isSome_iff_exists.mp hlinked.2
    obtain ⟨htarget, hdefault⟩ := linkedDefault_eq_some.mp hd
    exact ⟨d, mem_linkTargets.mpr ⟨r, hr, htarget⟩, hdefault⟩

theorem tally_fragment (hp : p.Fresh) (hbody : p.Native m pos f refs) {tpos : Pos}
    (htable : Description.Tabulates p.denoted tpos f refs) :
    p.Tally [.native pos (some f) refs] (p.fragmentWork f refs) := by
  have hidents : f.idents.countP (p.linksDefault refs) = f.idents.countP p.namesDefault :=
    List.countP_congr fun ident hident => by rw [hp.linksDefault_eq hbody hident]
  have hinvoked : (f.invoked.countP fun c => p.linksDefault refs c.1) =
      f.invoked.countP fun c => p.namesDefault c.1 :=
    List.countP_congr fun c hc => by rw [hp.linksDefault_eq hbody (f.partOf c hc).ident]
  -- invoked names are names, so that the difference in `fragmentWork` is never cut off
  have hle := countP_linksDefault_le (p := p) f refs
  have hnodes : ([Body.native pos (some f) refs].flatMap fun b => b.nodes fun _ => true).countP
      (fun n => n.callee?.any p.isDefault) = 0 := by
    rw [List.countP_eq_zero]
    simp [Body.nodes, below, Node.callee?]
  rw [hidents, hinvoked] at hle
  rw [fragmentWork, any_linkTargets_eq hp hbody htable, hidents, hinvoked]
  by_cases hany : f.idents.any p.namesDefault = true
  · rw [if_pos hany]
    refine ⟨hnodes.symm, ?_, ?_, ?_⟩
    · simp [Body.fragment?]
    · simp [Body.fragment?]
      omega
    · simp [Body.fragment?, hany]
  · rw [if_neg hany]
    have hnone : f.idents.countP p.namesDefault = 0 := by
      rw [List.countP_eq_zero]
      simpa using hany
    rw [hnone] at hle
    refine ⟨hnodes.symm, ?_, ?_, ?_⟩
    · simp [Body.fragment?]
      omega
    · simp [Body.fragment?, hnone]
    · simp [Body.fragment?, hany]

end fragment

/-- The arena has the methods that are declared, and no others. -/
theorem total_eq_sum (hp : p.Fresh) : p.total = (p.declaredMethods.map p.load).sum := by
  have hperm : p.declaredMethods.Perm ((List.range p.methods.length).map MethodRef.mk) := by
    refine (List.perm_ext_iff_of_nodup hp.declaredMethods_nodup ?_).mpr fun m => ?_
    · exact List.nodup_range.map fun i j h => MethodRef.mk.inj h
    · rw [List.mem_map]
      constructor
      · intro hm
        exact ⟨m.index, List.mem_range.mpr (hp.lt_of_mem_declaredMethods hm), rfl⟩
      · rintro ⟨i, hi, rfl⟩
        exact hp.mem_declaredMethods (List.mem_range.mp hi)
  rw [(hperm.map p.load).sum_eq, List.map_map]
  rfl

/-- What there is to retarget in a loaded program, counted by calls and names. -/
theorem tally_total (hp : p.Loaded) : p.Tally p.bodies p.total := by
  have hfresh := hp.fresh
  obtain ⟨file, x, hok⟩ := hp
  have hwellFormed := Description.build_wellFormed hok
  have hbody : ∀ m b, (p.method m).body = some b → p.Tally [b] (p.work b) := by
    intro m b hb
    rcases b with ⟨pos, block⟩ | ⟨pos, _ | f, refs⟩
    · exact tally_code pos block
    · cases hfresh.fragment m pos none refs hb
    · exact tally_fragment hfresh hb (hwellFormed.linkage m pos f refs hb)
  rw [total_eq_sum hfresh, bodies]
  induction p.declaredMethods with
  | nil => exact .nil
  | cons m ms ih =>
    rw [List.map_cons, List.sum_cons, load]
    cases hb : (p.method m).body with
    | none =>
      simp only [List.filterMap_cons, hb, Option.elim_none, zero_add]
      exact ih
    | some b =>
      simp only [List.filterMap_cons, hb, Option.elim_some]
      exact (hbody m b hb).append ih

/-! ## Section 4: Whether anything has changed -/

theorem clean_of_load (hp : p.Coherent) {m : MethodRef} (hcalls : (p.load m).calls = 0)
    (hfragments : (p.load m).fragments = 0) : p.Clean m := by
  intro b hbody d hd
  rw [load, hbody] at hcalls hfragments
  rcases b with ⟨pos, block⟩ | ⟨pos, _ | f, refs⟩
  · have hnone : (Body.code pos block).targets.countP p.isDefault = 0 := hcalls
    rw [List.countP_eq_zero] at hnone
    exact Bool.eq_false_iff.mpr (hnone d hd)
  · cases hp.fragment m pos none refs hbody
  · -- a fragment that is linked to a default method counts as one
    have hwork : (p.fragmentWork f refs).fragments = 0 := hfragments
    unfold fragmentWork at hwork
    split at hwork
    next => cases hwork
    next hnone =>
      rw [List.any_eq_true, not_exists] at hnone
      exact Bool.eq_false_iff.mpr fun hdefault => hnone d ⟨hd, hdefault⟩

theorem clean_of_total (hp : p.Coherent) (hcalls : p.total.calls = 0)
    (hfragments : p.total.fragments = 0) (m : MethodRef) : p.Clean m := by
  by_cases hlt : m.index < p.methods.length
  · rw [total_eq_add hlt, RetargetCounts.calls_add] at hcalls
    rw [total_eq_add hlt, RetargetCounts.fragments_add] at hfragments
    exact clean_of_load hp (by omega) (by omega)
  · intro b hb
    exact absurd (lt_of_body hb) hlt

/-- Steps that turn no body over add methods, if they do anything. -/
theorem Steps.eq_or_lt {permit : Permit} (h : Steps permit p q) (hp : p.Coherent)
    (hbodies : ¬permit.bodies) : q = p ∨ p.methods.length < q.methods.length := by
  refine (h.induct (P := fun q => q = p ∨ p.methods.length < q.methods.length) hp (.inl rfl) ?_).2
  intro q r hpq hq _ hstep
  have hle := (hpq.extends hp).length_methods
  right
  cases hstep with
  | twin =>
    rw [length_methods_withTwin]
    omega
  | forwarder =>
    rw [length_methods_withMethod rfl]
    omega
  | code m pos block hbody hserved hpermit => exact absurd hpermit hbodies
  | fragment m pos f refs name hbody hserved hname hlinked hsafe hpermit =>
    exact absurd hpermit hbodies

/-- A run that records no new method has added none. -/
theorem Recorded.length_eq {n : Nat} (h : Recorded n p [] []) : p.methods.length = n := by
  refine Nat.le_antisymm (Nat.le_of_not_lt fun hlt => ?_) h.le
  -- the first new method would be a twin or a forwarder
  have hmem : (⟨n⟩ : MethodRef) ∈ p.methodsFrom n := mem_methodsFrom.mpr ⟨Nat.le_refl n, hlt⟩
  have hnew : (⟨n⟩ : MethodRef) ∈ p.methodsSince n (p.method ⟨n⟩).static :=
    List.mem_filter.mpr ⟨hmem, beq_self_eq_true _⟩
  cases hstatic : (p.method ⟨n⟩).static with
  | true =>
    rw [hstatic, ← h.twins] at hnew
    cases hnew
  | false =>
    rw [hstatic, ← h.forwarders] at hnew
    cases hnew

/-- A successful run on a loaded program counts each call and each name of a default method in the
    bodies that were loaded once, and nothing else.  It says that it has changed the program if and only
    if it leaves another one. -/
theorem lower_statistics (hp : p.Loaded) {cache cache' : NameCache} {summary : Summary}
    (hrun : p.lower cache = ⟨q, cache', .ok summary⟩) :
    p.Tally p.bodies summary.counts ∧ (summary.changed = true ↔ q ≠ p) := by
  have hcoherent := hp.fresh.toCoherent
  have hcounts := lower_counts hp.fresh hrun
  have hphases := lower_phases hcoherent hrun
  have hrecorded := lower_recorded hrun
  refine ⟨hcounts ▸ tally_total hp, ?_, ?_⟩
  · rintro hchanged rfl
    -- a program that is left as it was has no new methods and uses no default method
    have htwins := hrecorded.twins
    have hforwarders := hrecorded.forwarders
    rw [methodsSince, methodsFrom_self] at htwins hforwarders
    rw [total_of_clean hphases.lowered.clean] at hcounts
    simp [Summary.changed, htwins, hforwarders, hcounts] at hchanged
  · intro hne
    by_contra hchanged
    apply hne
    simp only [Summary.changed, Bool.or_eq_true, Bool.not_eq_true', decide_eq_true_eq, not_or,
      List.isEmpty_eq_false_iff, not_not, Nat.not_lt, Nat.le_zero, gt_iff_lt] at hchanged
    obtain ⟨⟨⟨htwins, hforwarders⟩, hcalls⟩, hfragments⟩ := hchanged
    rw [hcounts] at hcalls hfragments
    rw [htwins, hforwarders] at hrecorded
    -- no forwarder was missing, for the first part of the run has added no method
    have hforwarded : p.forwarded = p := by
      rcases hphases.forwarding.eq_or_lt hcoherent id with hsame | hlt
      · exact hsame
      · have hle := (hphases.walking.extends (hphases.forwarding.coherent hcoherent)).length_methods
        rw [hrecorded.length_eq] at hle
        omega
    have hlowered : p.IsLowered := by
      refine ⟨hcoherent, clean_of_total hcoherent hcalls hfragments, ?_⟩
      have hcovered := (Forwarding.run_covered hcoherent {}).2.2
      change ∀ d, p.forwarded.isDefault d = true → p.forwarded.Covered d at hcovered
      rwa [hforwarded] at hcovered
    -- a program with nothing to do comes out as it went in
    rw [lower_of_isLowered hlowered] at hrun
    cases hrun
    rfl

end

/-- A default method that invokes itself, and a reference to it whose qualifier is another one, which is
    dropped when the reference is renamed. -/
def chained : Description where
  version := "1.0"
  types := [
    { name := "Source"
      kind := "interface"
      methods := [
        { name := "next"
          returns := "Source"
          native := some "return this.@Source::next()();" }] },
    { name := "Reader"
      kind := "class"
      methods := [
        { name := "quote"
          params := [{ name := "s", type := "Source" }]
          returns := "Source"
          native := some "return s.@Source::next().@Source::next();" },
        { name := "read"
          params := [{ name := "s", type := "Source" }]
          returns := "Source"
          body := .stmts 11 [.ret 12 (.record 12 none "" "Source.next()" (.name 12 "s") [])] }] }]

/-- The program so described. -/
def chainedProgram : Program :=
  match Description.build "chained" chained with
  | .ok p => p
  | .error _ => {}

theorem chained_loaded : chainedProgram.Loaded := by
  have hok : (Description.build "chained" chained).isOk = true := by decide +kernel
  obtain ⟨p, hp⟩ := Description.exists_of_isOk hok
  refine ⟨"chained", chained, ?_⟩
  rw [chainedProgram, hp]

theorem lower_statistics_chained : chainedProgram.Loaded ∧ ∃ q cache summary,
    chainedProgram.lower {} = ⟨q, cache, .ok summary⟩ ∧ summary.counts = ⟨1, 2, 1, 2⟩ ∧
    chainedProgram.Tally chainedProgram.bodies summary.counts ∧ summary.changed = true ∧
    q ≠ chainedProgram := by
  have hok : ((chainedProgram.lower {}).outcome.toOption.map (·.counts)) = some ⟨1, 2, 1, 2⟩ := by
    decide +kernel
  refine ⟨chained_loaded, ?_⟩
  rcases hrun : chainedProgram.lower {} with ⟨q, cache, fault | summary⟩
  · rw [hrun] at hok
    cases hok
  · rw [hrun] at hok
    have hcounts : summary.counts = ⟨1, 2, 1, 2⟩ := Option.some.inj hok
    obtain ⟨htally, hchanged⟩ := lower_statistics chained_loaded hrun
    have hsaid : summary.changed = true := by simp [Summary.changed, hcounts]
    exact ⟨q, cache, summary, rfl, hcounts, htally, hsaid, hchanged.mp hsaid⟩

end DefaultLowering.Program
