import DefaultLowering.Proofs.Correspondence
import DefaultLowering.Proofs.Recording

/-!
# Declaration order

A run visits types in the order of their declaration.  Which classes get a forwarder with which signature
does not depend on that order.  But a forwarder is for the first default method with its signature that
the class inherits, so that two orders may differ in what it calls, if two interfaces offer the class the
signature.  And an identifier that methods of two types share denotes the one that is declared first, so
that two orders may differ in the methods that a fragment uses, and then in the twins that are made.

- `lower_twinsFor`, `lower_forwardersFor`: the twins and forwarders of a run, told from the loaded program;
- `SameFirst`: forwarders with the same key are for default methods of the same interface;
- `lower_orderFree`: what two runs on the same types in different orders have in common;
- `lower_order_matters`: where they differ.
-/

namespace DefaultLowering.Program

variable {d : MethodRef} {o : MethodRef × TypeRef} {c : TypeRef}

variable {p p' q q' : Program}

/-! ## Section 1: The twins of a run -/

/-- The key that the twin of a default method gets. -/
def twinKey (p : Program) (d : MethodRef) : MethodKey := ⟨p.enclosingName d, p.twinSignature d⟩

theorem key_of_twinOf (hext : p.Extends q) (hq : q.Coherent) {t : MethodRef}
    (ht : q.twinOf? d = some t) : q.key t = p.twinKey d := by
  obtain ⟨hd, -⟩ := isTwin_of_twinOf hext hq ht
  simp only [key, twinKey, signature_twin hext hq ht, enclosingName, enclosing_twin hext hq ht,
    enclosing_of_isDefault hd, hext.typeName]

/-- Partners for all elements of a list, in the same order. -/
theorem exists_forall₂ {α β : Type} {R : α → β → Prop} {ys : List β} (h : ∀ y ∈ ys, ∃ x, R x y) :
    ∃ xs, List.Forall₂ R xs ys := by
  induction ys with
  | nil => exact ⟨[], .nil⟩
  | cons y ys ih =>
    rw [List.forall_mem_cons] at h
    obtain ⟨x, hx⟩ := h.1
    obtain ⟨xs, hxs⟩ := ih h.2
    exact ⟨x :: xs, .cons hx hxs⟩

theorem methodsSince_nodup (p : Program) (n : Nat) (static : Bool) : (p.methodsSince n static).Nodup :=
  (List.Nodup.map (fun _ _ h => MethodRef.mk.inj h) List.nodup_range').filter _

section

variable {cache cache' : NameCache} {summary : Summary}

/-- The twins that a run returns are the twins there are. -/
theorem lower_mem_twins (hp : p.Fresh) (hrun : p.lower cache = ⟨q, cache', .ok summary⟩)
    {t : MethodRef} : t ∈ summary.twins ↔ ∃ d, q.twinOf? d = some t := by
  have hphases := lower_phases hp.toCoherent hrun
  rw [(lower_recorded hrun).twins, methodsSince, List.mem_filter, mem_methodsFrom, beq_iff_eq]
  constructor
  · rintro ⟨⟨hge, hlt⟩, hstatic⟩
    rcases hphases.created hp hge hlt with htwin | ⟨d, c, -, hforwarder⟩
    · exact htwin
    · rw [hforwarder.static] at hstatic
      cases hstatic
  · rintro ⟨d, ht⟩
    obtain ⟨-, htwin⟩ :=
      isTwin_of_twinOf (hphases.steps.extends hp.toCoherent) hphases.lowered.coherent ht
    exact ⟨⟨hphases.steps.twin_new hp.toCoherent hp.statics ht, htwin.lt⟩, htwin.static⟩

/-- They belong to the default methods that need one. -/
theorem lower_twinsFor (hp : p.Fresh) (hrun : p.lower cache = ⟨q, cache', .ok summary⟩) :
    ∃ ds : List MethodRef, ds.Nodup ∧ (∀ d, d ∈ ds ↔ p.NeedsTwin d) ∧
      summary.twins.map q.key = ds.map p.twinKey := by
  have hphases := lower_phases hp.toCoherent hrun
  have hext := hphases.steps.extends hp.toCoherent
  have hq := hphases.lowered.coherent
  obtain ⟨ds, hds⟩ := exists_forall₂ fun t ht => (lower_mem_twins hp hrun).mp ht
  refine ⟨ds, ?_, ?_, ?_⟩
  · refine nodup_of_forall₂ hds.flip (fun t t' d ht ht' => ?_) ?_
    · exact Option.some.inj (ht.symm.trans ht')
    · rw [(lower_recorded hrun).twins]
      exact methodsSince_nodup _ _ _
  · intro d
    rw [hphases.needsTwin_iff hp]
    constructor
    · intro hd
      obtain ⟨t, -, ht⟩ := exists_of_forall₂_left hds hd
      exact ⟨t, ht⟩
    · rintro ⟨t, ht⟩
      obtain ⟨d', hd', ht'⟩ := exists_of_forall₂_right hds ((lower_mem_twins hp hrun).mpr ⟨d, ht⟩)
      exact hq.eq_of_twinOf ht ht' ▸ hd'
  · symm
    rw [← List.forall₂_eq_eq_eq, List.forall₂_map_left_iff, List.forall₂_map_right_iff]
    exact hds.imp fun d t ht => (key_of_twinOf hext hq ht).symm

/-! ## Section 2: The forwarders of a run -/

/-- The key that a forwarder gets. -/
def offerKey (p : Program) (o : MethodRef × TypeRef) : MethodKey :=
  ⟨(p.type o.2).name, (p.method o.1).signature⟩

/-- The key of a method, with the keys of the methods that its body calls. -/
def callKeys (p : Program) (m : MethodRef) : MethodKey × List MethodKey :=
  (p.key m, (p.targetsIn m).map p.key)

/-- A forwarder has the key of its offer, and calls the twin. -/
theorem ForwarderOf.callKeys {m : MethodRef} (h : ForwarderOf p q o m) (hext : p.Extends q)
    (hq : q.Coherent) :
    q.callKeys m = (p.offerKey o, [p.twinKey o.1]) := by
  have hkey : q.key m = p.offerKey o := by
    simp only [key, offerKey, enclosingName, h.enclosing, hext.typeName, h.signature]
  obtain ⟨twin, htwin, hbody⟩ := h.body
  have htargets : q.targetsIn m = [twin] := by
    rw [targetsIn, hbody]
    exact targets_delegatingBody m (q.method m) o.2 twin
  rw [Program.callKeys, hkey, htargets, List.map_singleton, key_of_twinOf hext hq htwin]

/-- The walk leaves forwarders as they are. -/
theorem Phases.forwarderOf (h : Phases p cache q cache') (hp : p.Fresh) {m : MethodRef}
    (hm : ForwarderOf p p.forwarded o m) : ForwarderOf p q o m := by
  have hforwarded := h.forwarding.coherent hp.toCoherent
  refine hm.extends (h.walking.extends hforwarded) ?_
  refine h.walking.method_of_clean hforwarded hm.lt ?_ (hm.clean hforwarded)
  rw [(h.forwarding.extends hp.toCoherent).isDefault]
  exact isDefault_of_le hm.new

/-- The forwarders that a run returns are those that were added before the walk. -/
theorem lower_forwarders (hrun : p.lower cache = ⟨q, cache', .ok summary⟩) :
    summary.forwarders = (Forwarding.run p {}).forwarders := by
  obtain ⟨-, _, -, -, -, -, rfl⟩ := lower_eq_ok hrun
  rfl

/-- The forwarders that a run returns, and what they call. -/
theorem lower_forwardersFor (hp : p.Fresh) (hrun : p.lower cache = ⟨q, cache', .ok summary⟩) :
    summary.forwarders.map q.callKeys =
      (p.offers.filter p.isTaken).map fun o => (p.offerKey o, [p.twinKey o.1]) := by
  have hphases := lower_phases hp.toCoherent hrun
  symm
  rw [lower_forwarders hrun, ← List.forall₂_eq_eq_eq, List.forall₂_map_left_iff,
    List.forall₂_map_right_iff]
  -- forwarders are added in the order of the offers that are taken up
  refine (Forwarding.run_exact hp {}).forwarders.imp fun o m hm => ?_
  exact ((hphases.forwarderOf hp hm).callKeys (hphases.steps.extends hp.toCoherent)
    hphases.lowered.coherent).symm

theorem lower_forwarderKeys (hp : p.Fresh) (hrun : p.lower cache = ⟨q, cache', .ok summary⟩) :
    summary.forwarders.map q.key = (p.offers.filter p.isTaken).map p.offerKey := by
  have hkeys := congrArg (List.map Prod.fst) (lower_forwardersFor hp hrun)
  rw [List.map_map, List.map_map] at hkeys
  exact hkeys

end

/-! ## Section 3: What is first -/

/-- The offers that are taken up. -/
theorem mem_taken (hp : p.Wired) :
    (d, c) ∈ p.offers.filter p.isTaken ↔ c ∈ p.declared ∧ (p.type c).isInterface = false ∧
      ¬p.Declares c (p.method d).signature ∧
        p.firstInherited? c (p.method d).signature = some d := by
  rw [List.mem_filter, isTaken_iff, mem_offers hp, mem_implementors_iff]
  constructor
  · rintro ⟨⟨-, hc, hclass, -⟩, hfree, hfirst⟩
    exact ⟨hc, hclass, hfree, hfirst⟩
  · rintro ⟨hc, hclass, hfree, hfirst⟩
    obtain ⟨hdefault, hsub⟩ := (mem_inherited hp).mp (List.mem_of_find?_eq_some hfirst)
    exact ⟨⟨hdefault, hc, hclass, hsub⟩, hfree, hfirst⟩

theorem signature_of_first {signature : String} (h : p.firstInherited? c signature = some d) :
    (p.method d).signature = signature := by
  have hfound := List.find?_some (p := fun d => (p.method d).signature == signature) h
  exact beq_iff_eq.mp hfound

theorem lt_of_first (hp : p.Wired) {signature : String}
    (h : p.firstInherited? c signature = some d) : d.index < p.methods.length :=
  lt_of_isDefault ((mem_inherited hp).mp (List.mem_of_find?_eq_some h)).1

/-- The default method that comes first is taken up by a class that does not declare its signature. -/
theorem taken_of_first (hp : p.Wired) (hc : c ∈ p.declared)
    (hclass : (p.type c).isInterface = false) {signature : String} (hfree : ¬p.Declares c signature)
    (hd : p.firstInherited? c signature = some d) :
    (d, c) ∈ p.offers.filter p.isTaken := by
  rw [mem_taken hp, signature_of_first hd]
  exact ⟨hc, hclass, hfree, hd⟩

/-- No two forwarders get the same key. -/
theorem Fresh.offerKeys_nodup (hp : p.Fresh) : ((p.offers.filter p.isTaken).map p.offerKey).Nodup := by
  refine (hp.offers_nodup.filter _).map_on ?_
  rintro ⟨d, c⟩ ho ⟨d', c'⟩ ho' hkey
  obtain ⟨hc, -, -, hfirst⟩ := (mem_taken hp.toWired).mp ho
  obtain ⟨hc', -, -, hfirst'⟩ := (mem_taken hp.toWired).mp ho'
  obtain ⟨hname, hsignature⟩ := MethodKey.mk.inj hkey
  obtain rfl := hp.name_inj c hc c' hc' hname
  rw [hsignature, hfirst', Option.some.injEq] at hfirst
  rw [hfirst]

theorem Fresh.offerCalls_nodup (hp : p.Fresh) :
    ((p.offers.filter p.isTaken).map fun o => (p.offerKey o, [p.twinKey o.1])).Nodup := by
  refine List.Nodup.of_map Prod.fst ?_
  rw [List.map_map]
  exact hp.offerKeys_nodup

/-- Two twins may get the same key, but not if the keys of their default methods stand beside them. -/
theorem Fresh.twinKeys_nodup (hp : p.Fresh) {ds : List MethodRef} (hds : ds.Nodup)
    (hneeds : ∀ d ∈ ds, p.NeedsTwin d) : (ds.map fun d => (p.key d, p.twinKey d)).Nodup := by
  refine hds.map_on fun d hd e he hde => ?_
  exact hp.key_inj d e (hneeds d hd).1 (hneeds e he).1 (Prod.mk.inj hde).1

/-- For a class and a signature that it does not declare, the interface with the default method that comes
    first is the same in both programs. -/
def SameFirst (p p' : Program) : Prop :=
  ∀ c ∈ p.declared, ∀ c' ∈ p'.declared, (p.type c).name = (p'.type c').name →
    (p.type c).isInterface = false → ∀ signature, ¬p.Declares c signature →
      (p.firstInherited? c signature).map p.enclosingName =
        (p'.firstInherited? c' signature).map p'.enclosingName

/-- No class inherits two default methods with a signature that it does not declare. -/
def OneOffer (p : Program) : Prop :=
  ∀ c ∈ p.declared, (p.type c).isInterface = false → ∀ d ∈ p.inherited c, ∀ e ∈ p.inherited c,
    (p.method d).signature = (p.method e).signature → ¬p.Declares c (p.method d).signature → d = e

/-- Lists whose elements have the same images, each once. -/
theorem perm_map_of_nodup {α β γ : Type} {xs : List α} {ys : List β} {f : α → γ} {g : β → γ}
    (hf : (xs.map f).Nodup) (hg : (ys.map g).Nodup) (hthere : ∀ x ∈ xs, ∃ y ∈ ys, g y = f x)
    (hback : ∀ y ∈ ys, ∃ x ∈ xs, f x = g y) : (xs.map f).Perm (ys.map g) := by
  rw [List.perm_ext_iff_of_nodup hf hg]
  intro z
  simp only [List.mem_map]
  constructor
  · rintro ⟨x, hx, rfl⟩
    exact hthere x hx
  · rintro ⟨y, hy, rfl⟩
    exact hback y hy

namespace Rearranged

variable (h : Rearranged p p')

include h

/-- A class of the other program inherits a default method with the same signature. -/
theorem first {c' : TypeRef} (hcc' : SameType p p' c c') {signature : String}
    (hd : p.firstInherited? c signature = some d) :
    ∃ d', p'.firstInherited? c' signature = some d' := by
  obtain ⟨d', hdd'⟩ := h.sameMethod (lt_of_first h.wired hd)
  rw [← Option.isSome_iff_exists, firstInherited?, List.find?_isSome]
  refine ⟨d', h.inherited hcc' hdd' (List.mem_of_find?_eq_some hd), ?_⟩
  rw [beq_iff_eq, ← hdd'.signature]
  exact signature_of_first hd

theorem first_none {c' : TypeRef} (hcc' : SameType p p' c c') {signature : String}
    (hnone : p.firstInherited? c signature = none) : p'.firstInherited? c' signature = none := by
  cases hd' : p'.firstInherited? c' signature with
  | none => rfl
  | some =>
    obtain ⟨d, hd⟩ := h.symm.first hcc'.symm hd'
    rw [hnone] at hd
    cases hd

/-- The offers taken up have the same keys. -/
theorem taken (ho : o ∈ p.offers.filter p.isTaken) :
    ∃ o' ∈ p'.offers.filter p'.isTaken, p'.offerKey o' = p.offerKey o := by
  obtain ⟨d, c⟩ := o
  obtain ⟨hc, hclass, hfree, hfirst⟩ := (mem_taken h.wired).mp ho
  obtain ⟨c', hcc'⟩ := h.sameType hc
  obtain ⟨d', hd'⟩ := h.first hcc' hfirst
  have hfree' : ¬p'.Declares c' (p.method d).signature := fun hd => hfree (hcc'.symm.declares hd)
  refine ⟨(d', c'), taken_of_first h.wired' hcc'.declared'
    (hcc'.isInterface ▸ hclass) hfree' hd', ?_⟩
  rw [offerKey, offerKey, signature_of_first hd', hcc'.name]

theorem sameFirst_symm (hfirst : p.SameFirst p') : p'.SameFirst p := by
  intro c' hc' c hc hname hclass signature hfree
  have hcc' := h.sameType_of_name hc hc' hname.symm
  exact (hfirst c hc c' hc' hname.symm (hcc'.isInterface ▸ hclass) signature
    fun hd => hfree (hcc'.declares hd)).symm

/-- The offers taken up have the same keys and twins, if the same default methods come first. -/
theorem taken_of_sameFirst (hsame : p.SameFirst p') (ho : o ∈ p.offers.filter p.isTaken) :
    ∃ o' ∈ p'.offers.filter p'.isTaken,
      (p'.offerKey o', [p'.twinKey o'.1]) = (p.offerKey o, [p.twinKey o.1]) := by
  obtain ⟨d, c⟩ := o
  obtain ⟨hc, hclass, hfree, hfirst⟩ := (mem_taken h.wired).mp ho
  obtain ⟨c', hcc'⟩ := h.sameType hc
  have hmap := hsame c hc c' hcc'.declared' hcc'.name hclass _ hfree
  rw [hfirst, Option.map_some] at hmap
  obtain ⟨d', hd', hname⟩ := Option.map_eq_some_iff.mp hmap.symm
  have hsignature := signature_of_first hd'
  have hdd' : SameMethod p p' d d' := by
    refine h.sameMethod_of_key (lt_of_first h.wired hfirst) (lt_of_first h.wired' hd') ?_
    rw [key, key, hname, hsignature]
  have hfree' : ¬p'.Declares c' (p.method d).signature := fun hd => hfree (hcc'.symm.declares hd)
  refine ⟨(d', c'), taken_of_first h.wired' hcc'.declared' (hcc'.isInterface ▸ hclass) hfree' hd', ?_⟩
  simp only [offerKey, twinKey, hsignature, hcc'.name, hname, hdd'.twinSignature h]

/-- With one offer at most there is no choice of what comes first. -/
theorem sameFirst_of_oneOffer (hone : p.OneOffer) : p.SameFirst p' := by
  intro c hc c' hc' hname hclass signature hfree
  have hcc' := h.sameType_of_name hc hc' hname
  cases hd : p.firstInherited? c signature with
  | none =>
    rw [h.first_none hcc' hd]
    rfl
  | some d =>
    obtain ⟨d', hd'⟩ := h.first hcc' hd
    -- the counterpart of what comes first in the other program is offered here too
    obtain ⟨e, he⟩ := h.symm.sameMethod (lt_of_first h.wired' hd')
    have hsignature : (p.method d).signature = (p.method e).signature := by
      rw [signature_of_first hd, ← he.signature, signature_of_first hd']
    have hde : d = e := by
      refine hone c hc hclass d (List.mem_of_find?_eq_some hd) e
        (h.symm.inherited hcc'.symm he (List.mem_of_find?_eq_some hd')) hsignature ?_
      rw [signature_of_first hd]
      exact hfree
    rw [hd', Option.map_some, Option.map_some, he.enclosingName h.symm, hde]

/-- The same forwarders call the same twins exactly if the same default methods come first. -/
theorem calls_iff :
    ((p.offers.filter p.isTaken).map fun o => (p.offerKey o, [p.twinKey o.1])).Perm
      ((p'.offers.filter p'.isTaken).map fun o => (p'.offerKey o, [p'.twinKey o.1])) ↔
        p.SameFirst p' := by
  constructor
  · intro hperm c hc c' hc' hname hclass signature hfree
    have hcc' := h.sameType_of_name hc hc' hname
    cases hd : p.firstInherited? c signature with
    | none =>
      rw [h.first_none hcc' hd]
      rfl
    | some =>
      -- the forwarder of the class is in both lists, and its twin tells the interface
      have htaken := taken_of_first h.wired hc hclass hfree hd
      obtain ⟨⟨d', c''⟩, ho', hsame⟩ :=
        List.mem_map.mp (hperm.mem_iff.mp (List.mem_map_of_mem htaken))
      simp only [Prod.mk.injEq, List.cons.injEq, and_true, offerKey, twinKey, MethodKey.mk.injEq]
        at hsame
      obtain ⟨⟨hclassName, hsignature⟩, henclosing, -⟩ := hsame
      obtain ⟨hc'', -, -, hfirst'⟩ := (mem_taken h.wired').mp ho'
      have hcc'' : c'' = c' := h.wired'.name_inj c'' hc'' c' hc' (hclassName.trans hname)
      rw [hsignature, signature_of_first hd, hcc''] at hfirst'
      rw [hfirst', Option.map_some, Option.map_some, henclosing]
  · intro hsame
    exact perm_map_of_nodup h.loaded.fresh.offerCalls_nodup h.loaded'.fresh.offerCalls_nodup
      (fun o => h.taken_of_sameFirst hsame)
      (fun o => h.symm.taken_of_sameFirst (h.sameFirst_symm hsame))

/-- A default method that needs a twin has a counterpart that gives its twin the same key. -/
theorem twinKey (hsame : p.SameDenoted p') (hd : p.NeedsTwin d) :
    ∃ d', p'.NeedsTwin d' ∧ (p'.key d', p'.twinKey d') = (p.key d, p.twinKey d) := by
  obtain ⟨d', hdd'⟩ := h.sameMethod (lt_of_isDefault hd.1)
  refine ⟨d', h.needsTwin hsame hdd' hd, ?_⟩
  rw [hdd'.key h, Program.twinKey, Program.twinKey, hdd'.enclosingName h,
    hdd'.twinSignature h]

/-- The default methods that need a twin give their twins the same keys. -/
theorem twinKeys (hsame : p.SameDenoted p') {ds ds' : List MethodRef} (hds : ds.Nodup)
    (hds' : ds'.Nodup) (hneeds : ∀ d, d ∈ ds ↔ p.NeedsTwin d)
    (hneeds' : ∀ d, d ∈ ds' ↔ p'.NeedsTwin d) : (ds.map p.twinKey).Perm (ds'.map p'.twinKey) := by
  -- the keys of twins may repeat, so membership alone does not tell how often each is there
  have hpairs : (ds.map fun d => (p.key d, p.twinKey d)).Perm
      (ds'.map fun d => (p'.key d, p'.twinKey d)) := by
    refine perm_map_of_nodup (h.loaded.fresh.twinKeys_nodup hds fun d => (hneeds d).mp)
      (h.loaded'.fresh.twinKeys_nodup hds' fun d => (hneeds' d).mp) ?_ ?_
    · intro d hd
      obtain ⟨d', hd', hkeys⟩ := h.twinKey hsame ((hneeds d).mp hd)
      exact ⟨d', (hneeds' d').mpr hd', hkeys⟩
    · intro d' hd'
      obtain ⟨d, hd, hkeys⟩ := h.symm.twinKey (h.sameDenoted_symm hsame) ((hneeds' d').mp hd')
      exact ⟨d, (hneeds d).mpr hd, hkeys⟩
  have hkeys := hpairs.map Prod.snd
  rw [List.map_map, List.map_map] at hkeys
  exact hkeys

end Rearranged

/-! ## Section 4: The specification -/

/-- What is the same after two runs, on `p` and on `p'`, which have types of the same shapes. -/
structure OrderFree (p p' q q' : Program) (summary summary' : Summary) : Prop where
  /-- The same classes get forwarders with the same signatures. -/
  forwarders : (summary.forwarders.map q.key).Perm (summary'.forwarders.map q'.key)
  /-- These call the same twins exactly if in both programs the same interface comes first, of those
      that offer the class the signature. -/
  calls_iff : (summary.forwarders.map q.callKeys).Perm (summary'.forwarders.map q'.callKeys) ↔
    p.SameFirst p'
  /-- That is so if there is one such interface only. -/
  sameFirst : p.OneOffer → p.SameFirst p'
  /-- The same twins are made, if the identifiers in fragments denote the same methods. -/
  twins : p.SameDenoted p' → (summary.twins.map q.key).Perm (summary'.twins.map q'.key)
  /-- That is so if methods of two types share none of these identifiers. -/
  sameDenoted : p.IdentsApart → p.SameDenoted p'
  /-- No methods of two types share an identifier if the names of types have no colons. -/
  identsApart : (∀ t ∈ p.declared, ':' ∉ (p.type t).name.toList) → p.IdentsApart

/-- Successful runs on two programs that have been loaded from the same types in different orders give
    classes forwarders with the same signatures.  These call the same twins where no choice between
    interfaces is to be made, and all twins are the same if no identifier in a fragment is ambiguous. -/
theorem lower_orderFree {file file' : String} {x y : Description} (hx : x.build file = .ok p)
    (hy : y.build file' = .ok p') (hxy : x.Reorders y) {cache cache' cache₁ cache₁' : NameCache}
    {summary summary' : Summary} (hrun : p.lower cache = ⟨q, cache₁, .ok summary⟩)
    (hrun' : p'.lower cache' = ⟨q', cache₁', .ok summary'⟩) :
    OrderFree p p' q q' summary summary' := by
  have hshapes : (p.declared.map p.typeShape).Perm (p'.declared.map p'.typeShape) := by
    rw [Description.build_shapes hx, Description.build_shapes hy]
    exact hxy
  have h : Rearranged p p' := ⟨⟨file, x, hx⟩, ⟨file', y, hy⟩, hshapes⟩
  have hfresh := h.loaded.fresh
  have hfresh' := h.loaded'.fresh
  refine ⟨?_, ?_, h.sameFirst_of_oneOffer, ?_, h.sameDenoted, identsApart_of_no_colon hfresh.toWired⟩
  · rw [lower_forwarderKeys hfresh hrun, lower_forwarderKeys hfresh' hrun']
    exact perm_map_of_nodup hfresh.offerKeys_nodup hfresh'.offerKeys_nodup (fun o => h.taken)
      (fun o => h.symm.taken)
  · rw [lower_forwardersFor hfresh hrun, lower_forwardersFor hfresh' hrun']
    exact h.calls_iff
  · intro hsame
    obtain ⟨ds, hds, hneeds, hkeys⟩ := lower_twinsFor hfresh hrun
    obtain ⟨ds', hds', hneeds', hkeys'⟩ := lower_twinsFor hfresh' hrun'
    rw [hkeys, hkeys']
    exact h.twinKeys hsame hds hds' hneeds hneeds'

/-- The types in the opposite order. -/
def backwards (x : Description) : Description := { x with types := x.types.reverse }

theorem lower_orderFree_greeting : ∃ q cache summary q' cache' summary',
    greeting.build "" = .ok (ofDescription greeting) ∧
    (backwards greeting).build "" = .ok (ofDescription (backwards greeting)) ∧
    greeting.Reorders (backwards greeting) ∧
    (ofDescription greeting).lower {} = ⟨q, cache, .ok summary⟩ ∧
    (ofDescription (backwards greeting)).lower {} = ⟨q', cache', .ok summary'⟩ ∧
    (summary.forwarders.map q.callKeys).Perm (summary'.forwarders.map q'.callKeys) ∧
    (summary.twins.map q.key).Perm (summary'.twins.map q'.key) := by
  have hx := build_ofDescription (x := greeting) (by decide +kernel)
  have hy := build_ofDescription (x := backwards greeting) (by decide +kernel)
  have hxy : greeting.Reorders (backwards greeting) :=
    Description.reorders_of_perm (List.reverse_perm _).symm
  have hok : ((ofDescription greeting).lower {}).outcome.isOk = true := by decide +kernel
  have hok' : ((ofDescription (backwards greeting)).lower {}).outcome.isOk = true := by
    decide +kernel
  obtain ⟨summary, hrun⟩ := lower_of_isOk hok
  obtain ⟨summary', hrun'⟩ := lower_of_isOk hok'
  have hfree := lower_orderFree hx hy hxy hrun hrun'
  have hone : (ofDescription greeting).OneOffer := by
    unfold OneOffer Declares
    decide +kernel
  have hnames : ∀ t ∈ (ofDescription greeting).declared,
      ':' ∉ ((ofDescription greeting).type t).name.toList := by decide +kernel
  exact ⟨_, _, summary, _, _, summary', hx, hy, hxy, hrun, hrun',
    hfree.calls_iff.mpr (hfree.sameFirst hone),
    hfree.twins (hfree.sameDenoted (hfree.identsApart hnames))⟩

/-! ## Section 5: Where the order matters -/

/-- A class with two interfaces that offer it the same signature. -/
def crossing : Description where
  version := "1.0"
  types := [
    { name := "A"
      kind := "interface"
      methods := [
        { name := "m"
          returns := "String"
          body := .stmts 4 [.ret 5 (.record 5 (some "\"a\"") "" "" .absent [])] }] },
    { name := "B"
      kind := "interface"
      methods := [
        { name := "m"
          returns := "String"
          body := .stmts 9 [.ret 10 (.record 10 (some "\"b\"") "" "" .absent [])] }] },
    { name := "C", implementing := ["A", "B"] }]

/-- A fragment that refers to a default method by an identifier that a default method of another interface
    has, too. -/
def colliding : Description where
  version := "1.0"
  types := [
    { name := "A"
      kind := "interface"
      methods := [
        { name := "n"
          params := [{ name := "x", type := "foo::bar(LX" }]
          returns := "String"
          body := .stmts 4 [.ret 5 (.record 5 (some "\"a\"") "" "" .absent [])] }] },
    { name := "A::n(Lfoo"
      kind := "interface"
      methods := [
        { name := "bar"
          params := [{ name := "x", type := "X" }]
          returns := "String"
          body := .stmts 9 [.ret 10 (.record 10 (some "\"b\"") "" "" .absent [])] }] },
    { name := "U"
      methods := [
        { name := "use"
          params := [{ name := "t", type := "A" }]
          returns := "Object"
          native := some "return t.@A::n(Lfoo::bar(LX;)(1);" }] }]

/-- In one order a forwarder calls a twin that it does not call in the other, and in one order a twin is
    made that is not made in the other. -/
theorem lower_order_matters :
    (∃ q cache summary q' cache' summary', (ofDescription crossing).Loaded ∧
      (ofDescription (backwards crossing)).Loaded ∧
      (ofDescription crossing).lower {} = ⟨q, cache, .ok summary⟩ ∧
      (ofDescription (backwards crossing)).lower {} = ⟨q', cache', .ok summary'⟩ ∧
      ∃ e ∈ summary.forwarders.map q.callKeys, e ∉ summary'.forwarders.map q'.callKeys) ∧
    ∃ q cache summary q' cache' summary', (ofDescription colliding).Loaded ∧
      (ofDescription (backwards colliding)).Loaded ∧
      (ofDescription colliding).lower {} = ⟨q, cache, .ok summary⟩ ∧
      (ofDescription (backwards colliding)).lower {} = ⟨q', cache', .ok summary'⟩ ∧
      ∃ k ∈ summary.twins.map q.key, k ∉ summary'.twins.map q'.key := by
  have hloaded : (ofDescription crossing).Loaded := loaded_ofDescription (by decide +kernel)
  have hloaded' : (ofDescription (backwards crossing)).Loaded :=
    loaded_ofDescription (by decide +kernel)
  have hok : ((ofDescription crossing).lower {}).outcome.isOk = true := by decide +kernel
  have hok' : ((ofDescription (backwards crossing)).lower {}).outcome.isOk = true := by
    decide +kernel
  obtain ⟨summary, hrun⟩ := lower_of_isOk hok
  obtain ⟨summary', hrun'⟩ := lower_of_isOk hok'
  have hcolliding : (ofDescription colliding).Loaded := loaded_ofDescription (by decide +kernel)
  have hcolliding' : (ofDescription (backwards colliding)).Loaded :=
    loaded_ofDescription (by decide +kernel)
  have hok₁ : ((ofDescription colliding).lower {}).outcome.isOk = true := by decide +kernel
  have hok₁' : ((ofDescription (backwards colliding)).lower {}).outcome.isOk = true := by
    decide +kernel
  obtain ⟨summary₁, hrun₁⟩ := lower_of_isOk hok₁
  obtain ⟨summary₁', hrun₁'⟩ := lower_of_isOk hok₁'
  refine ⟨⟨_, _, summary, _, _, summary', hloaded, hloaded', hrun, hrun',
    (⟨"C", "m()"⟩, [⟨"A", "m$static(A)"⟩]), ?_⟩, ⟨_, _, summary₁, _, _, summary₁', hcolliding,
    hcolliding', hrun₁, hrun₁', ⟨"A", "n$static(A,foo::bar(LX)"⟩, ?_⟩⟩
  · rw [lower_forwarders hrun, lower_forwarders hrun']
    decide +kernel
  · rw [(lower_recorded hrun₁).twins, (lower_recorded hrun₁').twins]
    decide +kernel

end DefaultLowering.Program
