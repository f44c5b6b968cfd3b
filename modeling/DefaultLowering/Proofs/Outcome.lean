import DefaultLowering.Lowering.Basic
import DefaultLowering.Proofs.Forwarders
import DefaultLowering.Proofs.Loading
import DefaultLowering.Proofs.Rounds

/-!
# What a run leaves

A run adds forwarders first, which always succeeds, and then walks all methods.  If it ends without a
fault, it has taken a coherent program to a lowered one by steps of lowering.  In a lowered program no
method uses a default method, and every default method is covered.

- `IsLowered`: a lowered program;
- `lower_phases`: a successful run in two parts;
- `lower_lowered`: what it leaves is lowered;
- `lower_stopped`: a run that fails has met a fragment that cannot be renamed.
-/

namespace DefaultLowering.Program

/-- Nothing is left to be lowered. -/
structure IsLowered (p : Program) : Prop where
  coherent : p.Coherent
  /-- No method uses a default method. -/
  clean : ∀ m, p.Clean m
  /-- Every class that implements an interface has methods of its own for the default methods. -/
  covered : ∀ d, p.isDefault d = true → p.Covered d

theorem remembers_self (cache : NameCache) (p : Program) : Remembers cache p cache :=
  fun _ _ h => .inl h

/-- The program with all forwarders. -/
def forwarded (p : Program) : Program := (Forwarding.run p {}).program

/-- What a successful run does: forwarders and their twins come first, and the identifiers of the
    rest are those that are remembered in the end. -/
structure Phases (p : Program) (cache : NameCache) (q : Program) (cache' : NameCache) : Prop where
  forwarding : Steps (Forwarding.permit p) p p.forwarded
  walking : Steps (.walking p.forwarded cache cache') p.forwarded q
  remembers : Remembers cache q cache'
  lowered : q.IsLowered

section

variable {p q : Program} {cache cache' : NameCache}

theorem Phases.steps (h : Phases p cache q cache') : Steps (.any cache) p q :=
  (h.forwarding.mono Forwarding.permit_within_any).trans
    (h.walking.mono Permit.retargeting_within_any)

/-- A run that succeeds has met no fault, and returns what the walk over the forwarded program leaves. -/
theorem lower_eq_ok {summary : Summary} (hrun : p.lower cache = ⟨q, cache', .ok summary⟩) :
    (Forwarding.run p {}).fault = none ∧ ∃ w, w.fault = none ∧ w.program = q ∧ w.user.cache = cache' ∧
      (Forwarding.run p {}).program.retargetAll
        { twinLog := (Forwarding.run p {}).twinLog, cache := cache } = w ∧
      summary = ⟨w.user.twinLog.made, (Forwarding.run p {}).forwarders, w.user.counts⟩ := by
  unfold lower at hrun
  simp only at hrun
  split at hrun
  · cases hrun
  · rename_i hforwarded
    split at hrun
    · cases hrun
    · rename_i hwalked
      cases hrun
      exact ⟨hforwarded, _, hwalked, rfl, rfl, rfl, rfl⟩

theorem lower_phases (hp : p.Coherent) {summary : Summary}
    (hrun : p.lower cache = ⟨q, cache', .ok summary⟩) : Phases p cache q cache' := by
  obtain ⟨hsteps₁, -, hcovered₁⟩ := Forwarding.run_covered hp {}
  have hp₁ := hsteps₁.coherent hp
  obtain ⟨-, _, hfault, rfl, rfl, rfl, -⟩ := lower_eq_ok hrun
  obtain ⟨hsteps₂, hremembers, hclean⟩ := retargetAll_steps hp₁ (remembers_self cache _) hfault
  -- the walk leaves covered what the forwarders have covered
  have hext := hsteps₂.extends hp₁
  refine ⟨hsteps₁, hsteps₂, hremembers, hsteps₂.coherent hp₁, hclean, ?_⟩
  intro d hd
  rw [hext.isDefault] at hd
  exact (hcovered₁ d hd).extends hp₁.toWired hext hd

/-- A successful run is some steps, and leaves a lowered program. -/
theorem lower_lowered (hp : p.Coherent) {summary : Summary}
    (hrun : p.lower cache = ⟨q, cache', .ok summary⟩) :
    Steps (.any cache) p q ∧ Remembers cache q cache' ∧ q.IsLowered := by
  have hphases := lower_phases hp hrun
  exact ⟨hphases.steps, hphases.remembers, hphases.lowered⟩

/-- A fault is met in the walk, at a fragment that cannot be renamed. -/
theorem lower_stopped (hp : p.Coherent) {fault : Fault}
    (hrun : (p.lower cache).outcome = .error fault) : Stopped cache p fault := by
  obtain ⟨hsteps₁, hfault₁, -⟩ := Forwarding.run_covered hp {}
  unfold lower at hrun
  simp only [hfault₁] at hrun
  cases hfault₂ : ((Forwarding.run p {}).program.retargetAll
      { twinLog := (Forwarding.run p {}).twinLog, cache := cache }).fault with
  | none =>
    rw [hfault₂] at hrun
    cases hrun
  | some fault' =>
    rw [hfault₂] at hrun
    cases hrun
    exact .of_steps Forwarding.permit_within_any hsteps₁
      (retargetAll_stopped (hsteps₁.coherent hp) (remembers_self cache _) hfault₂)

end

/-- A run on the small program succeeds: it makes three twins and adds two forwarders. -/
theorem greeting_lowers : ∃ q cache summary,
    greetingProgram.lower {} = ⟨q, cache, .ok summary⟩ ∧
      summary.twins.length = 3 ∧ summary.forwarders.length = 2 := by
  have hok : ((greetingProgram.lower {}).outcome.toOption.map fun summary =>
      (summary.twins.length, summary.forwarders.length)) = some (3, 2) := by decide +kernel
  rcases hrun : greetingProgram.lower {} with ⟨q, cache, fault | summary⟩
  · rw [hrun] at hok
    cases hok
  · rw [hrun] at hok
    simp only [Except.toOption, Option.map_some, Option.some.injEq, Prod.mk.injEq] at hok
    exact ⟨q, cache, summary, rfl, hok⟩

end DefaultLowering.Program
