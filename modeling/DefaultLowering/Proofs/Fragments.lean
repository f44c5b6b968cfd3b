import DefaultLowering.Proofs.Outcome
import DefaultLowering.Proofs.Spelling

/-!
# Fragments in the course of lowering

A fragment is renamed at most once, and it moves at most once, in this order or in the other.  So at any
time it is one of the fragments of loading, renamed or not, and stands in its method, or with the
receiver in the method's twin.

- `Native`: a method has a fragment as its body;
- `Steps.original`: a fragment that is still linked to default methods is as it was loaded;
- `Steps.lodged`: where a fragment stands after some steps, and what it is then;
- `Phases.lodged`: the same after a successful run, where nothing is left to be renamed.
-/

namespace DefaultLowering.Program

open Fragment

/-- The method has the fragment as its body. -/
def Native (p : Program) (m : MethodRef) (pos : Pos) (f : Fragment.Function) (refs : List Linkage) :
    Prop :=
  (p.method m).body = some (.native pos (some f) refs)

/-! ## Section 1: Names of twins -/

/-- The identifiers of the default methods that are linked, each with the identifier of its twin. -/
def twinRenames (p : Program) (cache : NameCache) (refs : List Linkage) : Renames :=
  p.linkRenames (p.twinIdent cache) refs

/-- The linkage with the entries of default methods turned over to twins. -/
def twinLinkage (p : Program) (cache : NameCache) (refs : List Linkage) : List Linkage :=
  distinctLinkage (refs.map (p.relink (p.twinIdent cache)))

/-- Everything may be done, with the identifiers that a cache has in the end. -/
def Permit.knowing (cache : NameCache) : Permit :=
  ⟨fun _ => True, True, True, fun p m ident => cache.idents.lookup (p.key m) = some ident⟩

section

variable {p q : Program} {cache : NameCache} {refs : List Linkage}

theorem TwinsKnown.extends (h : p.TwinsKnown cache refs) (hp : p.Coherent) (hext : p.Extends q) :
    q.TwinsKnown cache refs := by
  intro d hd hdefault
  rw [hext.isDefault] at hdefault
  obtain ⟨t, ident, ht, hident⟩ := h d hd hdefault
  refine ⟨t, ident, hext.staticOf d t hdefault ht, ?_⟩
  rw [hext.key (hp.twin d t hdefault ht).lt]
  exact hident

/-- What a twin is known by does not change while the program grows. -/
theorem Extends.twinIdent (hext : p.Extends q) (hp : p.Coherent) (h : p.TwinsKnown cache refs) :
    ∀ d ∈ linkTargets refs, p.isDefault d = true →
      q.staticOf? d = p.staticOf? d ∧ q.twinIdent cache d = p.twinIdent cache d := by
  intro d hd hdefault
  obtain ⟨t, ident, ht, -⟩ := h d hd hdefault
  have hstatic := hext.staticOf d t hdefault ht
  have hkey := hext.key (hp.twin d t hdefault ht).lt
  refine ⟨hstatic.trans ht.symm, ?_⟩
  simp only [Program.twinIdent, ht, hstatic, Option.bind_some, hkey]

theorem Extends.twinRenames (hext : p.Extends q) (hp : p.Coherent) (h : p.TwinsKnown cache refs) :
    q.twinRenames cache refs = p.twinRenames cache refs :=
  linkRenames_congr hext.isDefault fun d hd hdefault => (hext.twinIdent hp h d hd hdefault).2

theorem Extends.twinLinkage (hext : p.Extends q) (hp : p.Coherent) (h : p.TwinsKnown cache refs) :
    q.twinLinkage cache refs = p.twinLinkage cache refs := by
  refine congrArg distinctLinkage (relink_congr hext.isDefault ?_ ?_)
  · exact fun d hd hdefault => (hext.twinIdent hp h d hd hdefault).2
  · exact fun d hd hdefault => (hext.twinIdent hp h d hd hdefault).1

/-- A linkage that has been turned over has no entry of a default method. -/
theorem linkTargets_twinLinkage (hp : p.Coherent) :
    ∀ d ∈ linkTargets (p.twinLinkage cache refs), p.isDefault d = false := by
  intro d hd
  obtain ⟨r, hr, htarget⟩ := mem_linkTargets.mp hd
  obtain ⟨r', -, rfl⟩ := List.mem_map.mp (mem_of_mem_distinctLinkage hr)
  exact target_relink hp htarget

/-- Members are renamed, and the receiver parameter is no member. -/
theorem lookup_linkRenames_receiver {name : MethodRef → String}
    (hidents : ∀ r ∈ refs, isMemberIdent r.ident = true) :
    (p.linkRenames name refs).lookup receiverParam = none := by
  cases hnew : (p.linkRenames name refs).lookup receiverParam with
  | none => rfl
  | some =>
    obtain ⟨r, hr, d, -, hident, -⟩ := lookup_linkRenames hnew
    have hmember := hidents r hr
    rw [hident] at hmember
    exact absurd hmember (by decide)

end

/-! ## Section 2: Where fragments come from -/

/-- The fragment is one of those of the program `p`, or one of those with the receiver, in the twin of
    its method. -/
def Original (p q : Program) (k : MethodRef) (pos : Pos) (f : Fragment.Function)
    (refs : List Linkage) : Prop :=
  p.Native k pos f refs ∨
    ∃ m f', q.twinOf? m = some k ∧ p.Native m pos f' refs ∧ f = f'.withReceiver

section

variable {permit : Permit} {p q r : Program} {k : MethodRef} {pos : Pos} {f : Fragment.Function}
  {refs : List Linkage}

theorem Original.extends (h : Original p q k pos f refs) (hext : q.Extends r) :
    Original p r k pos f refs := by
  rcases h with hsame | ⟨m, f', htwin, hbody, hf⟩
  · exact .inl hsame
  · refine .inr ⟨m, f', ?_, hbody, hf⟩
    obtain ⟨hm, hstatic⟩ := twinOf_eq_some.mp htwin
    rw [twinOf_eq_some, hext.isDefault]
    exact ⟨hm, hext.staticOf m k hm hstatic⟩

/-- The fragment of a default method moves to the twin. -/
theorem Original.withTwin {d : MethodRef} (h : Original p q d pos f refs) (hq : q.Coherent)
    (hd : q.isDefault d = true) (hnone : q.staticOf? d = none) :
    Original p (q.withTwin d) q.next pos f.withReceiver refs := by
  rcases h with hsame | ⟨m, f', htwin, -, -⟩
  · refine .inr ⟨d, f, ?_, hsame, rfl⟩
    rw [twinOf_withTwin hq hd hnone, if_pos rfl]
  · -- a default method is no twin, so its fragment has not moved before
    obtain ⟨hm, hstatic⟩ := twinOf_eq_some.mp htwin
    rw [hq.twin_not_default hm hstatic] at hd
    cases hd

/-- Every step leaves the fragments that are linked to default methods as they were loaded. -/
theorem Step.original (hstep : Step permit q r) (hq : q.Coherent)
    (h : ∀ k pos f refs, q.Native k pos f refs → (∃ d ∈ linkTargets refs, q.isDefault d = true) →
      Original p q k pos f refs) :
    ∀ k pos f refs, r.Native k pos f refs → (∃ d ∈ linkTargets refs, r.isDefault d = true) →
      Original p r k pos f refs := by
  have hext := hstep.extends hq
  intro k pos f refs hbody hlinked
  have hkept : q.Native k pos f refs → Original p r k pos f refs :=
    fun hold => (h k pos f refs hold (hext.isDefault ▸ hlinked)).extends hext
  -- what has been turned over is linked to no default method
  have hturned : r.Clean k → Original p r k pos f refs := by
    intro hclean
    obtain ⟨d, hd, hdefault⟩ := hlinked
    rw [hclean _ hbody d hd] at hdefault
    cases hdefault
  cases hstep with
  | twin d hd hnone =>
    rcases fragment_withTwin_cases hq.toWired hd hbody with ⟨rfl, f', hold, rfl⟩ | hsame
    · exact (h d pos f' refs hold (hext.isDefault ▸ hlinked)).withTwin hq hd hnone
    · exact hkept hsame
  | forwarder =>
    rcases body_withMethod_cases rfl hbody with ⟨-, hnew⟩ | hsame
    · cases hnew
    · exact hkept hsame
  | code m mpos block hm hserved =>
    rcases body_withBody_cases hm hbody with ⟨rfl, -⟩ | hsame
    · exact hturned (clean_code hq hm hserved)
    · exact hkept hsame
  | fragment m mpos g mrefs name hm =>
    rcases body_withBody_cases hm hbody with ⟨rfl, -⟩ | hsame
    · exact hturned (clean_fragment hq name _ hm)
    · exact hkept hsame

/-- A fragment that is linked to default methods after some steps is as it was loaded. -/
theorem Steps.original (h : Steps permit p q) (hp : p.Coherent) (hbody : q.Native k pos f refs)
    (hlinked : ∃ d ∈ linkTargets refs, q.isDefault d = true) : Original p q k pos f refs := by
  refine (h.induct (P := fun q => ∀ k pos f refs, q.Native k pos f refs →
    (∃ d ∈ linkTargets refs, q.isDefault d = true) → Original p q k pos f refs) hp ?_ ?_).2
    k pos f refs hbody hlinked
  · exact fun k pos f refs hbody _ => .inl hbody
  · exact fun q r _ hq ih hstep => hstep.original hq ih

end

/-! ## Section 3: Where fragments stand -/

/-- The twin in the place of a method that has one; the body of the method stands there. -/
def successor (p : Program) (m : MethodRef) : MethodRef := (p.twinOf? m).getD m

/-- A fragment of the method as it stands there. -/
def hosted (p : Program) (m : MethodRef) (f : Fragment.Function) : Fragment.Function :=
  if (p.twinOf? m).isSome then f.withReceiver else f

/-- The fragment `g` with the linkage `refs'` is the fragment `f` with `refs`, or this one renamed. -/
def Reworked (cache : NameCache) (p : Program) (f : Fragment.Function) (refs : List Linkage)
    (g : Fragment.Function) (refs' : List Linkage) : Prop :=
  (g = f ∧ refs' = refs) ∨
    (p.TwinsKnown cache refs ∧ f.Safe (p.twinRenames cache refs) ∧
      g = f.renamed (p.twinRenames cache refs) 0 ∧ refs' = p.twinLinkage cache refs)

/-- The fragment that a method had in the beginning is where it should be, renamed or not. -/
def Lodged (cache : NameCache) (p : Program) (m : MethodRef) (pos : Pos) (f : Fragment.Function)
    (refs : List Linkage) : Prop :=
  ∃ g g' refs', p.Native (p.successor m) pos g refs' ∧ g.SameTree (p.hosted m g') ∧
    Reworked cache p f refs g' refs'

section

variable {cache : NameCache} {p q : Program} {m : MethodRef} {pos : Pos} {f g g' : Fragment.Function}
  {refs refs' : List Linkage}

theorem successor_of_twin {t : MethodRef} (h : p.twinOf? m = some t) : p.successor m = t := by
  rw [successor, h]
  rfl

theorem successor_of_none (h : p.twinOf? m = none) : p.successor m = m := by
  rw [successor, h]
  rfl

/-- A twin is no default method, so a body never moves on. -/
theorem Coherent.successor_lt (hp : p.Coherent) (hm : m.index < p.methods.length) :
    (p.successor m).index < p.methods.length ∧
      ∀ d, p.isDefault d = true → p.successor m = d → m = d := by
  cases htm : p.twinOf? m with
  | none =>
    rw [successor_of_none htm]
    exact ⟨hm, fun d _ hmd => hmd⟩
  | some t =>
    obtain ⟨hdefault, hstatic⟩ := twinOf_eq_some.mp htm
    rw [successor_of_twin htm]
    refine ⟨(hp.twin m t hdefault hstatic).lt, ?_⟩
    rintro d hd rfl
    rw [hp.twin_not_default hdefault hstatic] at hd
    cases hd

theorem Reworked.extends (h : Reworked cache p f refs g refs') (hp : p.Coherent)
    (hext : p.Extends q) : Reworked cache q f refs g refs' := by
  rcases h with hsame | ⟨hknown, hsafe, hg, hrefs⟩
  · exact .inl hsame
  · refine .inr ⟨hknown.extends hp hext, ?_, ?_, ?_⟩
    · rw [hext.twinRenames hp hknown]
      exact hsafe
    · rw [hext.twinRenames hp hknown]
      exact hg
    · rw [hext.twinLinkage hp hknown]
      exact hrefs

/-- The fragment stays where it is when the method in which it stands is not touched. -/
theorem Lodged.kept (h : Lodged cache p m pos f refs) (hp : p.Coherent) (hext : p.Extends q)
    (htwin : q.twinOf? m = p.twinOf? m)
    (hsame : q.method (p.successor m) = p.method (p.successor m)) :
    Lodged cache q m pos f refs := by
  obtain ⟨g, g', refs', hbody, htree, hreworked⟩ := h
  have hsuccessor : q.successor m = p.successor m := by rw [successor, htwin]; rfl
  refine ⟨g, g', refs', ?_, ?_, hreworked.extends hp hext⟩
  · unfold Native at hbody ⊢
    rw [hsuccessor, hsame]
    exact hbody
  · rw [hosted, htwin]
    exact htree

/-- A default method without a twin gets one, and its fragment moves. -/
theorem Lodged.withTwin {d : MethodRef} (h : Lodged cache p d pos f refs) (hp : p.Coherent)
    (hd : p.isDefault d = true) (hnone : p.staticOf? d = none) :
    Lodged cache (p.withTwin d) d pos f refs := by
  have hlt := lt_of_isDefault hd
  have hbefore : p.twinOf? d = none := by rw [twinOf?, if_pos hd, hnone]
  have hafter : (p.withTwin d).twinOf? d = some p.next := by
    rw [twinOf_withTwin hp hd hnone, if_pos rfl]
  -- whatever stands in the method, renamed or not, gets the receiver
  obtain ⟨g, g', refs', hbody, htree, hreworked⟩ := h
  unfold Native at hbody
  rw [successor_of_none hbefore] at hbody
  rw [hosted, hbefore] at htree
  refine ⟨g.withReceiver, g', refs', ?_, ?_, hreworked.extends hp (.withTwin hp.toWired hd)⟩
  · unfold Native
    rw [successor_of_twin hafter, method_withTwin_next hp.toWired hlt]
    change (p.method d).body.map (Relocation.body ⟨d, p.next⟩) = _
    rw [hbody]
    rfl
  · rw [hosted, hafter]
    exact htree.withReceiver

/-- Renaming and moving can be exchanged. -/
theorem hosted_renamed {renames : Renames}
    (h : renames.lookup receiverParam = none) (f : Fragment.Function) :
    ((p.hosted m f).renamed renames 0).SameTree (p.hosted m (f.renamed renames 0)) ∧
      ((p.hosted m f).Safe renames ↔ f.Safe renames) := by
  unfold hosted
  by_cases hmoved : (p.twinOf? m).isSome = true
  · rw [if_pos hmoved, if_pos hmoved]
    exact ⟨.exchange h f, f.safe_withReceiver h⟩
  · rw [if_neg hmoved, if_neg hmoved]
    exact ⟨.refl _, Iff.rfl⟩

/-- The fragment is renamed where it stands. -/
theorem Lodged.renamed {kpos : Pos} {kf : Fragment.Function} {krefs : List Linkage}
    {name : MethodRef → String} {globals : List String} (h : Lodged cache p m pos f refs)
    (hp : p.Coherent) (hidents : ∀ r ∈ refs, isMemberIdent r.ident = true)
    (hk : p.Native (p.successor m) kpos kf krefs) (hknown : p.TwinsKnown cache krefs)
    (hname : ∀ d ∈ linkTargets krefs, p.isDefault d = true → name d = p.twinIdent cache d)
    (hlinked : p.linkRenames name krefs ≠ []) (hsafe : kf.Safe (p.linkRenames name krefs))
    (hq : q = p.withBody (p.successor m)
      (.native kpos (some (kf.renamed (p.linkRenames name krefs) 0))
        (distinctLinkage (krefs.map (p.relink name)))) globals) :
    Lodged cache q m pos f refs := by
  obtain ⟨g, g', refs', hbody, htree, hreworked⟩ := h
  unfold Native at hk hbody
  rw [hk] at hbody
  cases hbody
  have hext : p.Extends q := hq ▸ .withBody hk rfl
  have htwin : q.twinOf? m = p.twinOf? m := by
    refine twinOf_congr hext.isDefault fun hm => ?_
    rw [hq]
    refine staticOf_withBody hk ?_ hm
    rfl
  rcases hreworked with ⟨rfl, rfl⟩ | ⟨-, -, -, rfl⟩
  · -- the step renames as the cache says, and the fragment may have moved before
    have htable : p.linkRenames name krefs = p.twinRenames cache krefs :=
      linkRenames_congr rfl hname
    have hlinkage : krefs.map (p.relink name) = krefs.map (p.relink (p.twinIdent cache)) :=
      relink_congr rfl hname fun _ _ _ => rfl
    have hreceiver : (p.twinRenames cache krefs).lookup receiverParam = none :=
      lookup_linkRenames_receiver hidents
    obtain ⟨hexchange, hsafe'⟩ := hosted_renamed (p := p) (m := m) hreceiver g'
    rw [htable] at hsafe
    refine ⟨kf.renamed (p.twinRenames cache krefs) 0, g'.renamed (p.twinRenames cache krefs) 0,
      p.twinLinkage cache krefs, ?_, ?_, ?_⟩
    · have hsuccessor : q.successor m = p.successor m := by rw [successor, htwin]; rfl
      unfold Native
      rw [hsuccessor, hq, method_withBody_self (lt_of_body hk), htable, hlinkage]
      rfl
    · rw [hosted, htwin]
      exact htree.renamed.trans hexchange
    · exact Reworked.extends (.inr ⟨hknown, hsafe'.mp (htree.safe.mp hsafe), rfl, rfl⟩) hp hext
  · -- what has been renamed is linked to no default method
    exact absurd (linkRenames_eq_nil.mpr (linkTargets_twinLinkage hp)) hlinked

end

section

variable {cache : NameCache} {p q : Program} {m : MethodRef} {pos : Pos} {f : Fragment.Function}
  {refs : List Linkage}

theorem Step.lodged (hstep : Step (.knowing cache) p q) (hp : p.Coherent)
    (hm : m.index < p.methods.length) (hidents : ∀ r ∈ refs, isMemberIdent r.ident = true)
    (h : Lodged cache p m pos f refs) : Lodged cache q m pos f refs := by
  have hext := hstep.extends hp
  obtain ⟨hsuccessor, hmoved⟩ := hp.successor_lt hm
  cases hstep with
  | twin d hd hnone =>
    by_cases hmd : m = d
    · subst hmd
      exact h.withTwin hp hd hnone
    · refine h.kept hp hext ?_ (method_withTwin_other ?_ (ne_next_of_lt hsuccessor))
      · rw [twinOf_withTwin hp hd hnone, if_neg hmd]
      · exact fun hd' => hmd (hmoved d hd hd')
  | forwarder =>
    refine h.kept hp hext ?_ (method_withMethod_ne rfl (ne_next_of_lt hsuccessor))
    exact twinOf_congr hext.isDefault (staticOf_withMethod hp.toWired rfl hext)
  | code k kpos block hbody =>
    have htwin := twinOf_congr (m := m) hext.isDefault (staticOf_withBody hbody isUsable_turnover)
    refine h.kept hp hext htwin (method_withBody_ne ?_)
    -- a fragment does not stand where a typed body stands
    obtain ⟨g, g', refs', hnative, -, -⟩ := h
    rintro rfl
    rw [hnative] at hbody
    cases hbody
  | fragment k kpos kf krefs name hbody hserved hname hlinked hsafe =>
    by_cases hk : p.successor m = k
    · subst hk
      have hknown : ∀ d ∈ linkTargets krefs, p.isDefault d = true → ∃ t,
          p.staticOf? d = some t ∧ cache.idents.lookup (p.key t) = some (name d) := by
        intro d hd hdefault
        obtain ⟨t, ht⟩ := Option.isSome_iff_exists.mp (hserved d hd hdefault)
        exact ⟨t, ht, hname d hd hdefault t ht⟩
      refine h.renamed hp hidents hbody ?_ ?_ hlinked hsafe rfl
      · intro d hd hdefault
        obtain ⟨t, ht, hident⟩ := hknown d hd hdefault
        exact ⟨t, name d, ht, hident⟩
      · intro d hd hdefault
        obtain ⟨t, ht, hident⟩ := hknown d hd hdefault
        simp only [twinIdent, ht, Option.bind_some, hident, Option.getD_some]
    · refine h.kept hp hext (twinOf_congr hext.isDefault (staticOf_withBody hbody ?_))
        (method_withBody_ne hk)
      rfl

/-- After some steps from a program without twins every fragment is renamed or not, and has moved if
    its method has a twin. -/
theorem Steps.lodged (hsteps : Steps (.knowing cache) p q) (hp : p.Coherent)
    (hstatics : p.statics = []) (hidents : ∀ r ∈ refs, isMemberIdent r.ident = true)
    (hbody : p.Native m pos f refs) : Lodged cache q m pos f refs := by
  have hnone : p.twinOf? m = none := twinOf_of_statics hstatics
  have hbegin : Lodged cache p m pos f refs := by
    refine ⟨f, f, refs, ?_, ?_, .inl ⟨rfl, rfl⟩⟩
    · rw [successor_of_none hnone]
      exact hbody
    · rw [hosted, hnone]
      exact .refl f
  refine (hsteps.induct (P := fun q => Lodged cache q m pos f refs) hp hbegin ?_).2
  intro q r hpq hq hlodged hstep
  exact hstep.lodged hq (Nat.lt_of_lt_of_le (lt_of_body hbody) (hpq.extends hp).length_methods)
    hidents hlodged

end

/-! ## Section 4: After a run -/

section

variable {cache cache' : NameCache} {p q : Program} {m : MethodRef} {pos : Pos}
  {f : Fragment.Function} {refs : List Linkage}

/-- The identifiers of a run are those that are remembered in the end. -/
theorem Phases.knowing (h : Phases p cache q cache') : Steps (.knowing cache') p q := by
  refine (h.forwarding.mono ?_).trans (h.walking.mono ?_)
  · exact ⟨fun _ _ => trivial, fun _ => trivial, fun _ => trivial, fun _ _ _ => False.elim⟩
  · exact ⟨fun _ _ => trivial, fun _ => trivial, fun _ => trivial, fun _ _ _ hname => hname.2⟩

/-- The linkage of a loaded fragment names members. -/
theorem Fresh.isMemberIdent (hp : p.Fresh) (hbody : p.Native m pos f refs) :
    ∀ r ∈ refs, isMemberIdent r.ident = true := by
  intro r hr
  obtain ⟨k, -, hdenoted⟩ := (hp.linked m pos f refs hbody).target r hr
  rw [← memberIdent_of_denoted hdenoted]
  exact isMemberIdent_memberIdent p k

/-- Where no identifier has two entries, there is nothing to drop. -/
theorem foldl_addLinkage_of_nodup {refs acc : List Linkage}
    (h : ((acc ++ refs).map (·.ident)).Nodup) : refs.foldl addLinkage acc = acc ++ refs := by
  induction refs generalizing acc with
  | nil => exact (List.append_nil acc).symm
  | cons r refs ih =>
    have hnone : ¬acc.any (·.ident == r.ident) = true := by
      intro hany
      obtain ⟨x, hx, hsame⟩ := List.any_eq_true.mp hany
      rw [List.map_append, List.nodup_append] at h
      exact h.2.2 x.ident (List.mem_map.mpr ⟨x, hx, rfl⟩) r.ident List.mem_cons_self
        (beq_iff_eq.mp hsame)
    rw [List.foldl_cons, addLinkage, if_neg hnone, ih (by simpa using h), List.append_assoc]
    rfl

/-- After a successful run every fragment has been renamed, where it may be that there was nothing to
    rename. -/
theorem Phases.lodged (h : Phases p cache q cache') (hp : p.Fresh) (hbody : p.Native m pos f refs) :
    q.TwinsKnown cache' refs ∧ f.Safe (q.twinRenames cache' refs) ∧
      ∃ g, q.Native (q.successor m) pos g (q.twinLinkage cache' refs) ∧
        g.SameTree (q.hosted m (f.renamed (q.twinRenames cache' refs) 0)) := by
  obtain ⟨g, g', refs', hnative, htree, hreworked⟩ :=
    h.knowing.lodged hp.toCoherent hp.statics (hp.isMemberIdent hbody) hbody
  rcases hreworked with ⟨rfl, rfl⟩ | ⟨hknown, hsafe, rfl, rfl⟩
  · have hclean : ∀ d ∈ linkTargets refs', q.isDefault d = false := h.lowered.clean _ _ hnative
    have hnil : q.twinRenames cache' refs' = [] := linkRenames_eq_nil.mpr hclean
    have hrefs : q.twinLinkage cache' refs' = refs' := by
      have hdistinct : (([] ++ refs').map Linkage.ident).Nodup :=
        (hp.linked m pos g' refs' hbody).distinct
      unfold twinLinkage
      rw [map_relink_of_clean hclean]
      exact foldl_addLinkage_of_nodup hdistinct
    refine ⟨?_, ?_, g, ?_, ?_⟩
    · intro d hd hdefault
      rw [hclean d hd] at hdefault
      cases hdefault
    · rw [hnil]
      exact ⟨fun _ _ => nofun, (hp.bound m pos g' refs' hbody).2⟩
    · rw [hrefs]
      exact hnative
    · rw [hnil, Part.function.inj ((Part.function g').renamed_nil 0).1]
      exact htree
  · exact ⟨hknown, hsafe, g, hnative, htree⟩

end

/-! ## Section 5: The specification -/

/-- What has become of the fragment `f` of the method `m` of `p`: it follows the rule, with the
    identifiers that `cache` has for the twins of `q`. -/
structure FollowsRule (p q : Program) (cache : NameCache) (m : MethodRef) (pos : Pos)
    (f : Fragment.Function) (refs : List Linkage) : Prop where
  /-- The identifier of every default method that is linked is renamed to the identifier of its twin,
      and no other identifier is renamed. -/
  renames : ∀ old new, (q.twinRenames cache refs).lookup old = some new ↔
    ∃ r ∈ refs, r.ident = old ∧ ∃ d t, r.target = some d ∧ p.isDefault d = true ∧
      q.twinOf? d = some t ∧ cache.idents.lookup (q.key t) = some new
  /-- The fragment of a method without a twin is renamed. -/
  renamed : q.twinOf? m = none → ∃ g, q.Native m pos g (q.twinLinkage cache refs) ∧
    g.SameTree (f.renamed (q.twinRenames cache refs) 0)
  /-- The fragment of a method with a twin is renamed and moved. -/
  moved : ∀ t, q.twinOf? m = some t → ∃ g, q.Native t pos g (q.twinLinkage cache refs) ∧
    g.SameTree (f.renamed (q.twinRenames cache refs) 0).withReceiver

section

variable {cache : NameCache} {p q : Program} {m : MethodRef} {pos : Pos} {f : Fragment.Function}
  {refs : List Linkage}

/-- The renames of a loaded fragment, entry by entry.  Entries with the same identifier have the same
    target, so that it does not matter which of them comes first. -/
theorem lookup_twinRenames (hp : p.Fresh) (hext : p.Extends q) (hbody : p.Native m pos f refs)
    (hknown : q.TwinsKnown cache refs) (old new : String) :
    (q.twinRenames cache refs).lookup old = some new ↔
      ∃ r ∈ refs, r.ident = old ∧ ∃ d t, r.target = some d ∧ p.isDefault d = true ∧
        q.twinOf? d = some t ∧ cache.idents.lookup (q.key t) = some new := by
  have htarget := (hp.linked m pos f refs hbody).target
  have hident : ∀ r ∈ refs, ∀ d, q.linkedDefault r = some d → ∃ t ident,
      q.twinOf? d = some t ∧ cache.idents.lookup (q.key t) = some ident ∧
        q.twinIdent cache d = ident := by
    intro r hr d hd
    obtain ⟨hrd, hdefault⟩ := linkedDefault_eq_some.mp hd
    obtain ⟨t, ident, ht, hident⟩ := hknown d (mem_linkTargets.mpr ⟨r, hr, hrd⟩) hdefault
    refine ⟨t, ident, twinOf_eq_some.mpr ⟨hdefault, ht⟩, hident, ?_⟩
    simp only [twinIdent, ht, Option.bind_some, hident, Option.getD_some]
  constructor
  · intro hnew
    obtain ⟨r, hr, d, hd, hold, hname⟩ := lookup_linkRenames hnew
    obtain ⟨hrd, hdefault⟩ := linkedDefault_eq_some.mp hd
    obtain ⟨t, ident, ht, hlookup, hident⟩ := hident r hr d hd
    refine ⟨r, hr, hold, d, t, hrd, hext.isDefault ▸ hdefault, ht, ?_⟩
    rw [hlookup, ← hident, hname]
  · rintro ⟨r, hr, rfl, d, t, hrd, hdefault, ht, hnew⟩
    rw [← hext.isDefault] at hdefault
    have hd := linkedDefault_eq_some.mpr ⟨hrd, hdefault⟩
    cases hlookup : (q.twinRenames cache refs).lookup r.ident with
    | none =>
      rw [linkedDefault_of_lookup hr hlookup] at hd
      cases hd
    | some =>
      obtain ⟨r', hr', d', hd', hsame, hname⟩ := lookup_linkRenames hlookup
      obtain ⟨t', ident', ht', hlookup', hident'⟩ := hident r' hr' d' hd'
      -- both entries target what their identifier denotes
      obtain ⟨k, hk, hdenoted⟩ := htarget r hr
      obtain ⟨k', hk', hdenoted'⟩ := htarget r' hr'
      rw [hsame, hdenoted, Option.some.injEq] at hdenoted'
      rw [(linkedDefault_eq_some.mp hd').1, ← hdenoted', ← hk, hrd, Option.some.injEq] at hk'
      subst hk'
      rw [ht, Option.some.injEq] at ht'
      subst ht'
      rw [← hname, hident', ← hlookup', hnew]

/-- Any fragment, with the receiver or without, is rewritten by the rule whenever this ends without a
    fault, whatever the renames.  After a successful run on a loaded program, all of its fragments have
    been rewritten so, with the identifiers of default methods renamed to those of their twins. -/
theorem fragment_followsRule (hp : p.Loaded) (hbody : p.Native m pos f refs) :
    (∀ (g : Fragment.Function) renames globals, (g.rename renames globals).fault = none →
      (g.rename renames globals).node = .function (g.renamed renames 0)) ∧
      ∀ base q cache summary, p.lower base = ⟨q, cache, .ok summary⟩ →
        FollowsRule p q cache m pos f refs := by
  constructor
  · intro g renames globals hfault
    by_cases hsafe : g.Safe renames
    · exact (rename_of_safe globals hsafe).1
    · obtain ⟨fault, hfault', -⟩ := rename_of_not_safe globals hsafe
      rw [hfault'] at hfault
      cases hfault
  · intro base q cache summary hrun
    have hfresh := hp.fresh
    have hphases := lower_phases hfresh.toCoherent hrun
    have hext := hphases.steps.extends hfresh.toCoherent
    obtain ⟨hknown, -, g, hnative, htree⟩ := hphases.lodged hfresh hbody
    refine ⟨lookup_twinRenames hfresh hext hbody hknown, ?_, ?_⟩
    · intro hnone
      rw [successor_of_none hnone] at hnative
      rw [hosted, hnone] at htree
      exact ⟨g, hnative, htree⟩
    · intro t ht
      rw [successor_of_twin ht] at hnative
      rw [hosted, ht] at htree
      exact ⟨g, hnative, htree⟩

end

/-- A default method of the small program has a fragment that is linked to another default method. -/
theorem greeting_native : ∃ pos f refs, greetingProgram.Native ⟨1⟩ pos f refs ∧
    (linkTargets refs).any greetingProgram.isDefault = true := by
  have hlinked : ((greetingProgram.method ⟨1⟩).body.any fun b =>
      b.isNative && b.targets.any greetingProgram.isDefault) = true := by decide +kernel
  have hfragment := greeting_loaded.fresh.fragment ⟨1⟩
  unfold Native
  rcases hbody : (greetingProgram.method ⟨1⟩).body with _ | ⟨pos, block⟩ | ⟨pos, _ | f, refs⟩
  · rw [hbody] at hlinked
    cases hlinked
  · rw [hbody] at hlinked
    cases hlinked
  · cases hfragment pos none refs hbody
  · rw [hbody] at hlinked
    exact ⟨pos, f, refs, rfl, hlinked⟩

theorem fragment_followsRule_greeting : ∃ pos f refs q cache summary, greetingProgram.Loaded ∧
    greetingProgram.Native ⟨1⟩ pos f refs ∧ (linkTargets refs).any greetingProgram.isDefault = true ∧
      greetingProgram.lower {} = ⟨q, cache, .ok summary⟩ ∧
      FollowsRule greetingProgram q cache ⟨1⟩ pos f refs := by
  obtain ⟨pos, f, refs, hbody, hlinked⟩ := greeting_native
  obtain ⟨q, cache, summary, hrun, -, -⟩ := greeting_lowers
  have hrule := (fragment_followsRule greeting_loaded hbody).2 {} q cache summary hrun
  exact ⟨pos, f, refs, q, cache, summary, greeting_loaded, hbody, hlinked, hrun, hrule⟩

end DefaultLowering.Program
