import DefaultLowering.Proofs.Steps

/-!
# Implementing classes get their forwarders

Adding forwarders to a coherent program never fails.  It is a sequence of steps, after which every
default method is covered: it has a twin if some class implements its interface, and each such class
declares a method with its signature (`run_covered`).  No other default method gets a twin.
-/

namespace DefaultLowering

variable {p : Program} {t : TypeRef} {d twin : MethodRef}

namespace Program

/-! ## Section 1: Subtypes stay subtypes -/

section

variable {p q : Program} (h : p.Extends q)

include h

theorem Extends.directSupertypes (t : TypeRef) :
    q.directSupertypes t = p.directSupertypes t := by
  obtain ⟨new, hnew⟩ := h.type t
  unfold Program.directSupertypes
  rw [hnew]

theorem Extends.climb (n : Nat) (ts : List TypeRef) : q.climb n ts = p.climb n ts := by
  have hstep : ∀ ts, q.stepUp ts = p.stepUp ts := by
    intro ts
    simp only [stepUp, funext h.directSupertypes]
  induction n generalizing ts with
  | zero => rfl
  | succ n ih => simp only [Program.climb, hstep, ih]

theorem Extends.implementors (t : TypeRef) : q.implementors t = p.implementors t := by
  unfold Program.implementors
  rw [h.declared]
  apply List.filter_congr
  intro c _
  simp only [DeclaredType.isInterface, h.typeKind, isSubtype, supertypes, h.length_types, h.climb]

end

theorem mem_defaultsOf (hp : p.Wired) (ht : t ∈ p.declared) :
    d ∈ p.defaultsOf t ↔ p.isDefault d = true ∧ p.home d = t := by
  unfold defaultsOf
  rw [List.mem_filter]
  constructor
  · rintro ⟨hmem, hd⟩
    have henclosing := (hp.member t ht d hmem).2
    exact ⟨hd, by simp [home, henclosing]⟩
  · rintro ⟨hd, rfl⟩
    exact ⟨(hp.home_declared (lt_of_isDefault hd)).2.2, hd⟩

/-! ## Section 2: Covered default methods -/

/-- The type declares a method with the signature. -/
def Declares (p : Program) (t : TypeRef) (signature : String) : Prop :=
  ∃ m ∈ (p.type t).methods, (p.method m).signature = signature

theorem ownMethod_isSome {signature : String} :
    (p.ownMethod? t signature).isSome = true ↔ p.Declares t signature := by
  simp [ownMethod?, Declares]

/-- The classes that implement the interface of a default method need its twin, and each declares a
    method for it. -/
def Covered (p : Program) (d : MethodRef) : Prop :=
  ∀ c ∈ p.implementors (p.home d),
    (p.staticOf? d).isSome = true ∧ p.Declares c (p.method d).signature

theorem mem_implementors {c : TypeRef} (h : c ∈ p.implementors t) :
    c ∈ p.declared ∧ (p.type c).isInterface = false := by
  obtain ⟨hc, hsub⟩ := List.mem_filter.mp h
  rw [Bool.and_eq_true, Bool.not_eq_true'] at hsub
  exact ⟨hc, hsub.1⟩

section

variable {p q : Program} (hp : p.Wired) (h : p.Extends q)

include hp h

theorem Declares.extends (ht : t ∈ p.declared) {signature : String}
    (hdeclares : p.Declares t signature) : q.Declares t signature := by
  obtain ⟨m, hm, hsignature⟩ := hdeclares
  refine ⟨m, h.mem_methods hm, ?_⟩
  rw [h.signature (hp.member t ht m hm).1]
  exact hsignature

theorem Covered.extends (hd : p.isDefault d = true) (hcovered : p.Covered d) :
    q.Covered d := by
  have hlt := lt_of_isDefault hd
  intro c hc
  rw [h.home hlt, h.implementors] at hc
  obtain ⟨hstatic, hdeclares⟩ := hcovered c hc
  obtain ⟨twin, htwin⟩ := Option.isSome_iff_exists.mp hstatic
  refine ⟨?_, ?_⟩
  · rw [h.staticOf d twin hd htwin]
    rfl
  · rw [h.signature hlt]
    exact hdeclares.extends hp h (mem_implementors hc).1

end

end Program

/-! ## Section 3: Adding forwarders -/

namespace Forwarding

open Program

/-- Forwarders are added, and twins made of default methods whose interfaces some class
    implements. -/
def permit (p : Program) : Permit :=
  ⟨fun d => p.implementors (p.home d) ≠ [], True, False, fun _ _ _ => False⟩

theorem permit_within_any {base : NameCache} : (permit p).Within (.any base) :=
  Permit.within_any fun _ _ _ => False.elim

/-- What holds while forwarders are added to a program that began as `p`. -/
structure Inv (p : Program) (s : Forwarding) : Prop where
  steps : Steps (permit p) p s.program
  fault : s.fault = none

variable {p : Program} {s : Forwarding}

/-- One class. -/
theorem addForwarder_inv (hp : p.Coherent) (hs : s.Inv p) (hd : s.program.isDefault d = true)
    (htwin : s.program.staticOf? d = some twin) (ht : t ∈ s.program.declared)
    (hclass : (s.program.type t).isInterface = false) :
    (s.addForwarder d twin t).Inv p ∧
      s.program.Extends (s.addForwarder d twin t).program ∧
      (s.addForwarder d twin t).program.Declares t (s.program.method d).signature := by
  unfold addForwarder
  by_cases hown : (s.program.ownMethod? t (s.program.method d).signature).isSome = true
  · -- a class keeps the method of its own
    simp only [hown, if_true]
    exact ⟨hs, .refl _, ownMethod_isSome.mp hown⟩
  · simp only [hown, Bool.false_eq_true, if_false]
    have hcoherent := hs.steps.coherent hp
    have hnone : s.program.ownMethod? t (s.program.method d).signature = none := by
      simpa using hown
    have hstep : Step (permit p) s.program
        (s.program.withMethod t (forwarderFor s.program t d twin s.program.next)) :=
      .forwarder d twin t hd htwin ht hclass hnone trivial
    refine ⟨⟨hs.steps.tail hstep, hs.fault⟩, hstep.extends hcoherent, s.program.next, ?_, ?_⟩
    · change s.program.next ∈ ((s.program.withMethod t _).type t).methods
      rw [type_withMethod_self rfl (hcoherent.declared_lt t ht)]
      simp
    · change ((s.program.withMethod t
        (forwarderFor s.program t d twin s.program.next)).method s.program.next).signature = _
      rw [method_withMethod_self rfl]
      exact signature_forwarderFor s.program t d twin s.program.next

/-- All classes for one default method. -/
theorem foldl_addForwarder_inv (hp : p.Coherent) (hs : s.Inv p) {classes : List TypeRef}
    (hd : s.program.isDefault d = true) (htwin : s.program.staticOf? d = some twin)
    (hclasses : ∀ t ∈ classes, t ∈ s.program.declared ∧ (s.program.type t).isInterface = false) :
    (classes.foldl (fun s t => s.addForwarder d twin t) s).Inv p ∧
      s.program.Extends (classes.foldl (fun s t => s.addForwarder d twin t) s).program ∧
      ∀ t ∈ classes, (classes.foldl (fun s t => s.addForwarder d twin t) s).program.Declares t
        (s.program.method d).signature := by
  induction classes generalizing s with
  | nil => exact ⟨hs, .refl _, fun t ht => by cases ht⟩
  | cons t ts ih =>
    rw [List.forall_mem_cons] at hclasses
    obtain ⟨hs₁, hext₁, hdeclares⟩ :=
      addForwarder_inv hp hs hd htwin hclasses.1.1 hclasses.1.2
    have hd₁ : (s.addForwarder d twin t).program.isDefault d = true := by
      rw [hext₁.isDefault]
      exact hd
    have hts : ∀ u ∈ ts, u ∈ (s.addForwarder d twin t).program.declared ∧
        ((s.addForwarder d twin t).program.type u).isInterface = false := by
      intro u hu
      rw [hext₁.declared, DeclaredType.isInterface, hext₁.typeKind]
      exact hclasses.2 u hu
    obtain ⟨hs', hext', hrest⟩ := ih hs₁ hd₁ (hext₁.staticOf d twin hd htwin) hts
    rw [hext₁.signature (lt_of_isDefault hd)] at hrest
    refine ⟨hs', hext₁.trans hext', ?_⟩
    intro u hu
    rcases List.mem_cons.mp hu with rfl | hu
    · refine hdeclares.extends (hs₁.steps.coherent hp).toWired hext' ?_
      rw [hext₁.declared]
      exact hclasses.1.1
    · exact hrest u hu

/-- After the forwarders of a default method that has its twin, the method is covered. -/
theorem covered_foldl (hp : p.Coherent) (hs : s.Inv p) {classes : List TypeRef}
    (hd : s.program.isDefault d = true) (htwin : s.program.staticOf? d = some twin)
    (hclasses : s.program.implementors (s.program.home d) = classes) :
    (classes.foldl (fun s t => s.addForwarder d twin t) s).Inv p ∧
      s.program.Extends (classes.foldl (fun s t => s.addForwarder d twin t) s).program ∧
      (classes.foldl (fun s t => s.addForwarder d twin t) s).program.Covered d := by
  have hlt := lt_of_isDefault hd
  have hkinds : ∀ t ∈ classes,
      t ∈ s.program.declared ∧ (s.program.type t).isInterface = false :=
    fun t ht => mem_implementors (hclasses ▸ ht)
  obtain ⟨hs', hext, hdeclares⟩ := foldl_addForwarder_inv hp hs hd htwin hkinds
  refine ⟨hs', hext, ?_⟩
  intro c hc
  rw [hext.home hlt, hext.implementors, hclasses] at hc
  refine ⟨?_, ?_⟩
  · rw [hext.staticOf d twin hd htwin]
    rfl
  · rw [hext.signature hlt]
    exact hdeclares c hc

/-- One default method gets its twin, and its forwarders. -/
theorem addForwarders_inv (hp : p.Coherent) (hs : s.Inv p) {classes : List TypeRef}
    (hd : s.program.isDefault d = true)
    (hclasses : s.program.implementors (s.program.home d) = classes) (hsome : classes ≠ []) :
    (s.addForwarders classes d).Inv p ∧
      s.program.Extends (s.addForwarders classes d).program ∧
      (s.addForwarders classes d).program.Covered d := by
  have hcoherent := hs.steps.coherent hp
  have hlt := lt_of_isDefault hd
  unfold addForwarders
  rw [hs.fault, requestTwin_eq hcoherent hd]
  cases htwin : s.program.staticOf? d with
  | some => exact covered_foldl hp hs hd htwin hclasses
  | none =>
    -- the twin comes first; the interface has the same implementors before and afterwards
    have hbegin := hs.steps.extends hp
    have hneeded : (permit p).twins d := by
      have hd₀ : p.isDefault d = true := by
        rw [← hbegin.isDefault]
        exact hd
      rw [hbegin.home (lt_of_isDefault hd₀), hbegin.implementors] at hclasses
      show p.implementors (p.home d) ≠ []
      rw [hclasses]
      exact hsome
    have hstep : Step (permit p) s.program (s.program.withTwin d) := .twin d hd htwin hneeded
    have hext := hstep.extends hcoherent
    have htwin' : (s.program.withTwin d).staticOf? d = some s.program.next := by
      rw [staticOf_withTwin hcoherent hd htwin hd, if_pos rfl]
    have hd' : (s.program.withTwin d).isDefault d = true := by
      rw [hext.isDefault]
      exact hd
    have hclasses' : (s.program.withTwin d).implementors ((s.program.withTwin d).home d) =
        classes := by
      rw [hext.home hlt, hext.implementors, hclasses]
    obtain ⟨hs', hext', hcovered⟩ := covered_foldl
      (s := { program := s.program.withTwin d
              twinLog := ⟨s.twinLog.made ++ [s.program.next]⟩
              forwarders := s.forwarders })
      hp ⟨hs.steps.tail hstep, rfl⟩ hd' htwin' hclasses'
    exact ⟨hs', hext.trans hext', hcovered⟩

/-- All default methods of one interface. -/
theorem foldl_addForwarders_inv (hp : p.Coherent) (hs : s.Inv p) {classes : List TypeRef}
    (hclasses : s.program.implementors t = classes) (hsome : classes ≠ []) {ds : List MethodRef}
    (hds : ∀ d ∈ ds, s.program.isDefault d = true ∧ s.program.home d = t) :
    (ds.foldl (fun s d => s.addForwarders classes d) s).Inv p ∧
      s.program.Extends (ds.foldl (fun s d => s.addForwarders classes d) s).program ∧
      ∀ d ∈ ds, (ds.foldl (fun s d => s.addForwarders classes d) s).program.Covered d := by
  induction ds generalizing s with
  | nil => exact ⟨hs, .refl _, fun d hd => by cases hd⟩
  | cons d ds ih =>
    rw [List.forall_mem_cons] at hds
    obtain ⟨⟨hd, hhome⟩, hds⟩ := hds
    obtain ⟨hs₁, hext₁, hcovered⟩ := addForwarders_inv hp hs hd (by rw [hhome, hclasses]) hsome
    have hds₁ : ∀ k ∈ ds, (s.addForwarders classes d).program.isDefault k = true ∧
        (s.addForwarders classes d).program.home k = t := by
      intro k hk
      obtain ⟨hdefault, hhome'⟩ := hds k hk
      rw [hext₁.isDefault, hext₁.home (lt_of_isDefault hdefault)]
      exact ⟨hdefault, hhome'⟩
    obtain ⟨hs', hext', hrest⟩ := ih hs₁ (by rw [hext₁.implementors, hclasses]) hds₁
    refine ⟨hs', hext₁.trans hext', ?_⟩
    intro k hk
    rcases List.mem_cons.mp hk with rfl | hk
    · refine hcovered.extends (hs₁.steps.coherent hp).toWired hext' ?_
      rw [hext₁.isDefault]
      exact hd
    · exact hrest k hk

/-- One type: afterwards its default methods are covered. -/
theorem addForType_inv (hp : p.Coherent) (hs : s.Inv p) (ht : t ∈ s.program.declared) :
    (s.addForType t).Inv p ∧ s.program.Extends (s.addForType t).program ∧
      ∀ d, s.program.isDefault d = true → s.program.home d = t →
        (s.addForType t).program.Covered d := by
  have hdefaults : ∀ d, d ∈ s.program.defaultsOf t ↔
      s.program.isDefault d = true ∧ s.program.home d = t :=
    fun d => mem_defaultsOf (hs.steps.coherent hp).toWired ht
  unfold addForType
  by_cases hinterface : (s.program.type t).isInterface = true
  · simp only [hs.fault, hinterface, Option.isSome_none, Bool.not_true, Bool.or_self,
      Bool.false_eq_true, if_false]
    by_cases hclasses : s.program.implementors t = []
    · -- no class implements the interface
      simp only [hclasses, List.isEmpty_nil, if_true]
      refine ⟨hs, .refl _, ?_⟩
      intro d _ hhome c hc
      rw [hhome, hclasses] at hc
      cases hc
    · simp only [List.isEmpty_iff, hclasses, if_false]
      obtain ⟨hs', hext, hcovered⟩ := foldl_addForwarders_inv hp hs rfl hclasses
        (fun d hd => (hdefaults d).mp hd)
      exact ⟨hs', hext, fun d hd hhome => hcovered d ((hdefaults d).mpr ⟨hd, hhome⟩)⟩
  · -- a class declares no default methods
    simp only [hinterface, Bool.not_false, Bool.or_true, if_true]
    refine ⟨hs, .refl _, ?_⟩
    rintro d hd rfl
    exact absurd (isInterface_home hd) hinterface

theorem foldl_addForType_inv (hp : p.Coherent) (hs : s.Inv p) {ts : List TypeRef}
    (hts : ∀ t ∈ ts, t ∈ s.program.declared) :
    (ts.foldl addForType s).Inv p ∧
      s.program.Extends (ts.foldl addForType s).program ∧
      ∀ d, s.program.isDefault d = true → s.program.home d ∈ ts →
        (ts.foldl addForType s).program.Covered d := by
  induction ts generalizing s with
  | nil => exact ⟨hs, .refl _, fun d _ hhome => by cases hhome⟩
  | cons t ts ih =>
    rw [List.forall_mem_cons] at hts
    obtain ⟨hs₁, hext₁, hcovered⟩ := addForType_inv hp hs hts.1
    obtain ⟨hs', hext', hrest⟩ := ih hs₁ (by rw [hext₁.declared]; exact hts.2)
    refine ⟨hs', hext₁.trans hext', ?_⟩
    intro d hd hhome
    have hd₁ : (s.addForType t).program.isDefault d = true := by
      rw [hext₁.isDefault]
      exact hd
    -- the turn of its own interface covers a default method, and it stays covered
    rcases List.mem_cons.mp hhome with hhome | hhome
    · exact (hcovered d hd hhome).extends (hs₁.steps.coherent hp).toWired hext' hd₁
    · refine hrest d hd₁ ?_
      rw [hext₁.home (lt_of_isDefault hd)]
      exact hhome

/-- Forwarders are added without a fault, and every default method is covered in the end. -/
theorem run_covered (hp : p.Coherent) (log : TwinLog) :
    Steps (permit p) p (run p log).program ∧ (run p log).fault = none ∧
      ∀ d, (run p log).program.isDefault d = true → (run p log).program.Covered d := by
  have hall : ∀ t ∈ p.declared, t ∈ p.declared := fun _ ht => ht
  obtain ⟨hs, hext, hcovered⟩ := foldl_addForType_inv (s := { program := p, twinLog := log }) hp
    ⟨.refl (a := p), rfl⟩ hall
  refine ⟨hs.steps, hs.fault, fun d hd => ?_⟩
  have hd' : p.isDefault d = true := by
    rw [← hext.isDefault]
    exact hd
  exact hcovered d hd' (hp.home_declared (lt_of_isDefault hd')).1

end Forwarding

end DefaultLowering
