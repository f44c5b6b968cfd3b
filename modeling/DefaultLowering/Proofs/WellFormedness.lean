import DefaultLowering.Proofs.Outcome

/-!
# Lowering keeps bodies fitting their methods

Bodies move from instance methods to static ones, sometimes while they are walked, and calls change
their shape before or after the move.  Still no `this` and no parameter of another method is left in a
body, at any depth.

- `Step.fits`: one step of lowering keeps every body fitting;
- `lower_fits`: so does a whole run, on every loaded program.
-/

namespace DefaultLowering.Program

/-! ## Section 1: Twins -/

section

variable {p : Program} (hp : p.Coherent) {d : MethodRef} (hd : p.isDefault d = true)

include hp hd

/-- What is left behind in a default method passes everything on. -/
theorem methodFits_delegating : (p.withTwin d).MethodFits d := by
  have hlt := lt_of_isDefault hd
  have hext : p.Extends (p.withTwin d) := .withTwin hp.toWired hd
  have htwin : (p.withTwin d).IsTwin d p.next := isTwin_withTwin hp.toWired hd
  have hself := method_withTwin_self (p := p) hlt
  refine ⟨?_, ?_, ?_⟩
  · intro pos block hbody
    rw [htwin.delegates] at hbody
    refine stmtsFit_passingOn htwin.lt ?_ ?_ rfl htwin.static ?_ (Option.some.inj hbody)
    · rw [hself]
      exact not_static_of_isDefault hd
    · rw [hext.home hlt, hself]
      exact enclosing_of_isDefault hd
    · rw [htwin.params, List.length_cons]
  · rw [htwin.delegates, htwin.native]
    rfl
  · intro pos func refs hbody
    rw [htwin.delegates] at hbody
    cases hbody

/-- The twin has the body of the default method, relocated. -/
theorem methodFits_twin (hfits : p.MethodFits d) : (p.withTwin d).MethodFits p.next := by
  have hlt := lt_of_isDefault hd
  have hext : p.Extends (p.withTwin d) := .withTwin hp.toWired hd
  have htwin : (p.withTwin d).IsTwin d p.next := isTwin_withTwin hp.toWired hd
  have hself := method_withTwin_self (p := p) hlt
  have hnext := method_withTwin_next hp.toWired hlt
  have hbody : ((p.withTwin d).method p.next).body =
      (p.method d).body.map (Relocation.body ⟨d, p.next⟩) := by
    rw [hnext]
    rfl
  -- the twin is of the same kind as the body it gets, typed or native
  refine ⟨?_, ?_, ?_⟩
  · intro pos block hcode
    rw [hbody] at hcode
    obtain ⟨b, hb, hmoved⟩ := Option.map_eq_some_iff.mp hcode
    rcases b with ⟨pos', block'⟩ | ⟨pos', func, refs⟩
    · obtain ⟨c, rfl, hc⟩ := hfits.code pos' block' hb
      cases hmoved
      exact ⟨_, rfl, (hc.kept hext.keepsHeads hlt).relocation htwin⟩
    · cases hmoved
  · rw [hnext]
    change (p.method d).body.any Body.isNative =
      ((p.method d).body.map (Relocation.body ⟨d, p.next⟩)).any Body.isNative
    rcases (p.method d).body with _ | ⟨pos, block⟩ | ⟨pos, func, refs⟩ <;> rfl
  · intro pos func refs hnative
    rw [hbody] at hnative
    obtain ⟨b, hb, hmoved⟩ := Option.map_eq_some_iff.mp hnative
    rcases b with ⟨pos', block'⟩ | ⟨pos', func', refs'⟩
    · cases hmoved
    · obtain ⟨f, rfl, hf⟩ := hfits.fragment pos' func' refs' hb
      cases hmoved
      refine ⟨f.withReceiver, rfl, ?_⟩
      rw [f.params_withReceiver, hf, htwin.params, hself]
      rfl

end

/-! ## Section 2: Every step -/

/-- A forwarder passes everything on to a twin. -/
theorem methodFits_forwarder {p : Program} (hp : p.Coherent) {d twin : MethodRef} {t : TypeRef}
    (hd : p.isDefault d = true) (htwin : p.staticOf? d = some twin) (ht : t ∈ p.declared)
    (hclass : (p.type t).isInterface = false) :
    (p.withMethod t (Forwarding.forwarderFor p t d twin p.next)).MethodFits p.next := by
  have hx : (Forwarding.forwarderFor p t d twin p.next).id = none := rfl
  have hext : p.Extends (p.withMethod t (Forwarding.forwarderFor p t d twin p.next)) :=
    .withMethod hp.toWired ht hx (.inr hclass)
  have hself := method_withMethod_self (p := p) (t := t) hx
  have his := hp.twin d twin hd htwin
  have hsame := method_withMethod_ne (p := p) (t := t) hx (ne_next_of_lt his.lt)
  refine ⟨?_, ?_, ?_⟩
  · intro pos block hbody
    rw [hself] at hbody
    refine stmtsFit_passingOn ?_ ?_ ?_ ?_ ?_ ?_ (Option.some.inj hbody)
    · exact Nat.lt_of_lt_of_le his.lt hext.length_methods
    · rw [hself]
      rfl
    · rw [hself]
    · rw [hself]
      exact List.length_map ..
    · rw [hsame]
      exact his.static
    · rw [hsame, his.params, List.length_cons]
  · rw [hself]
    rfl
  · intro pos func refs hbody
    rw [hself] at hbody
    cases hbody

/-- A body may be replaced by one that fits as well. -/
theorem MethodFits.withBody {p : Program} {m : MethodRef} {b b' : Body} {globals : List String}
    (hfits : p.MethodFits m) (hbody : (p.method m).body = some b)
    (hext : p.Extends (p.withBody m b' globals)) (hnative : b'.isNative = b.isNative)
    (hcode : ∀ pos block, b' = .code pos block → ∃ c, block = some c ∧ StmtsFit p m [] c.stmts)
    (hfragment : ∀ pos func refs, b' = .native pos func refs →
      ∃ f, func = some f ∧ f.params = (p.method m).params.map (·.name)) :
    (p.withBody m b' globals).MethodFits m := by
  have hlt := lt_of_body hbody
  have hself : (p.withBody m b' globals).method m = { p.method m with body := some b' } :=
    method_withBody_self hlt
  refine ⟨?_, ?_, ?_⟩
  · intro pos block hb
    rw [hself] at hb
    obtain ⟨c, hc, hcfits⟩ := hcode pos block (Option.some.inj hb)
    exact ⟨c, hc, hcfits.kept hext.keepsHeads hlt⟩
  · have hbefore := hfits.native
    rw [hbody] at hbefore
    rw [hself]
    change (p.method m).native = b'.isNative
    rw [hnative]
    exact hbefore
  · intro pos func refs hb
    rw [hself] at hb ⊢
    exact hfragment pos func refs (Option.some.inj hb)

variable {permit : Permit} {p q : Program}

/-- Every step keeps bodies fitting their methods. -/
theorem Step.fits (h : Step permit p q) (hp : p.Coherent) (hfits : ∀ m, p.MethodFits m)
    (m : MethodRef) : q.MethodFits m := by
  have hext := h.extends hp
  have hkeeps := hext.keepsHeads
  cases h with
  | twin d hd =>
    by_cases hmd : m = d
    · rw [hmd]
      exact methodFits_delegating hp hd
    · by_cases hmn : m = p.next
      · rw [hmn]
        exact methodFits_twin hp hd (hfits d)
      · exact (hfits m).kept hkeeps (method_withTwin_other hmd hmn)
  | forwarder d twin t hd htwin ht hclass =>
    by_cases hmn : m = p.next
    · rw [hmn]
      exact methodFits_forwarder hp hd htwin ht hclass
    · exact (hfits m).kept hkeeps (method_withMethod_ne rfl hmn)
  | code k pos block hbody hserved =>
    by_cases hmk : m = k
    · subst hmk
      refine (hfits m).withBody hbody hext rfl ?_ nofun
      intro pos' block' hcode
      cases hcode
      obtain ⟨c, hc, hcfits⟩ := (hfits m).code pos (some block) hbody
      cases hc
      exact ⟨_, rfl, hcfits.turnover hp (lt_of_body hbody) hserved⟩
    · exact (hfits m).kept hkeeps (method_withBody_ne hmk)
  | fragment k pos f refs name hbody =>
    by_cases hmk : m = k
    · subst hmk
      refine (hfits m).withBody hbody hext rfl nofun ?_
      intro pos' func refs' hnative
      cases hnative
      obtain ⟨f', hf', hparams⟩ := (hfits m).fragment pos (some f) refs hbody
      cases hf'
      exact ⟨_, rfl, (Fragment.Function.params_renamed ..).trans hparams⟩
    · exact (hfits m).kept hkeeps (method_withBody_ne hmk)

/-- A run of steps keeps bodies fitting their methods. -/
theorem Steps.fits (h : Steps permit p q) (hp : p.Coherent) (hfits : ∀ m, p.MethodFits m) :
    ∀ m, q.MethodFits m :=
  (h.induct hp hfits fun _ _ _ hq hfits hstep => hstep.fits hq hfits).2

/-! ## Section 3: Whole runs -/

/-- After a successful run on a loaded program every body fits its method: those of twins, of
    forwarders and of the default methods that pass everything on included. -/
theorem lower_fits (hp : p.Loaded) {cache cache' : NameCache} {summary : Summary}
    (hrun : p.lower cache = ⟨q, cache', .ok summary⟩) (m : MethodRef) : q.MethodFits m := by
  have hfresh := hp.fresh
  obtain ⟨hsteps, -, -⟩ := lower_lowered hfresh.toCoherent hrun
  exact hsteps.fits hfresh.toCoherent hfresh.fits m

theorem lower_fits_greeting : ∃ q cache summary, greetingProgram.Loaded ∧
    greetingProgram.lower {} = ⟨q, cache, .ok summary⟩ ∧ ∀ m, q.MethodFits m := by
  obtain ⟨q, cache, summary, hrun, -, -⟩ := greeting_lowers
  exact ⟨q, cache, summary, greeting_loaded, hrun, lower_fits greeting_loaded hrun⟩

end DefaultLowering.Program
