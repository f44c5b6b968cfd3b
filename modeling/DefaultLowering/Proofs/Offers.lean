import DefaultLowering.Proofs.Forwarders
import DefaultLowering.Proofs.Growth
import DefaultLowering.Proofs.Loading

/-!
# Which forwarders are added

Every default method is offered to every class that implements its interface: interface by interface,
default method by default method, class by class.  A class takes up an offer if it declares no method
with the signature, and the offer is the first that it gets for the signature.

The loop asks the class as it is by then, with the forwarders that it has got.  The invariant (`Exact`)
says that the forwarders up to now belong to the offers taken up so far, so that the answer of the
class is the same as if it had been asked before the run (`declares_iff`).

- `offers`, `isTaken`: the offers, and those that are taken up;
- `addForwarder_exact`, `foldl_addForType_exact`: one offer and all of them keep the invariant;
- `run_forwarded`: the forwarders of a loaded program.
-/

namespace DefaultLowering

variable {d m : MethodRef} {c t : TypeRef}

namespace Program

/-! ## Section 1: Offers -/

/-- The default methods that a class inherits, in the order of the program. -/
def inherited (p : Program) (c : TypeRef) : List MethodRef :=
  (p.declared.filter fun t => (p.type t).isInterface && p.isSubtype c t).flatMap p.defaultsOf

/-- The first inherited default method with a signature. -/
def firstInherited? (p : Program) (c : TypeRef) (signature : String) : Option MethodRef :=
  (p.inherited c).find? fun d => (p.method d).signature == signature

/-- Every default method with every class that implements its interface. -/
def offers (p : Program) : List (MethodRef × TypeRef) :=
  p.declared.flatMap fun t => (p.defaultsOf t).flatMap fun d => (p.implementors t).map fun c => (d, c)

/-- The class declares no method with the signature, and inherits no default method with the
    signature that comes before. -/
def isTaken (p : Program) (o : MethodRef × TypeRef) : Bool :=
  (p.ownMethod? o.2 (p.method o.1).signature).isNone &&
    p.firstInherited? o.2 (p.method o.1).signature == some o.1

section

variable {p : Program}

theorem isTaken_iff : p.isTaken (d, c) = true ↔
    ¬p.Declares c (p.method d).signature ∧
      p.firstInherited? c (p.method d).signature = some d := by
  rw [isTaken, Bool.and_eq_true, beq_iff_eq, ← ownMethod_isSome, Option.isNone_iff_eq_none,
    Bool.not_eq_true, Option.isSome_eq_false_iff, Option.isNone_iff_eq_none]

theorem mem_implementors_iff : c ∈ p.implementors t ↔
    c ∈ p.declared ∧ (p.type c).isInterface = false ∧ p.isSubtype c t = true := by
  rw [implementors, List.mem_filter, Bool.and_eq_true, Bool.not_eq_true']

theorem mem_inherited (hp : p.Wired) : d ∈ p.inherited c ↔
    p.isDefault d = true ∧ p.isSubtype c (p.home d) = true := by
  unfold inherited
  rw [List.mem_flatMap]
  constructor
  · rintro ⟨t, ht, hd⟩
    rw [List.mem_filter, Bool.and_eq_true] at ht
    obtain ⟨hdefault, rfl⟩ := (mem_defaultsOf hp ht.1).mp hd
    exact ⟨hdefault, ht.2.2⟩
  · rintro ⟨hdefault, hsub⟩
    have hhome := (hp.home_declared (lt_of_isDefault hdefault)).1
    refine ⟨p.home d, ?_, (mem_defaultsOf hp hhome).mpr ⟨hdefault, rfl⟩⟩
    rw [List.mem_filter, Bool.and_eq_true]
    exact ⟨hhome, isInterface_home hdefault, hsub⟩

theorem mem_offers (hp : p.Wired) : (d, c) ∈ p.offers ↔
    p.isDefault d = true ∧ c ∈ p.implementors (p.home d) := by
  simp only [offers, List.mem_flatMap, List.mem_map, Prod.mk.injEq]
  constructor
  · rintro ⟨t, ht, d', hd', c', hc', rfl, rfl⟩
    obtain ⟨hdefault, rfl⟩ := (mem_defaultsOf hp ht).mp hd'
    exact ⟨hdefault, hc'⟩
  · rintro ⟨hdefault, hc⟩
    have hhome := (hp.home_declared (lt_of_isDefault hdefault)).1
    exact ⟨p.home d, hhome, d, (mem_defaultsOf hp hhome).mpr ⟨hdefault, rfl⟩, c, hc, rfl, rfl⟩

/-- A class declares no default methods. -/
theorem defaultsOf_class (hp : p.Wired) (ht : t ∈ p.declared)
    (hclass : (p.type t).isInterface ≠ true) : p.defaultsOf t = [] := by
  rw [List.eq_nil_iff_forall_not_mem]
  intro d hd
  obtain ⟨hdefault, rfl⟩ := (mem_defaultsOf hp ht).mp hd
  exact hclass (isInterface_home hdefault)

/-- No offer is made twice. -/
theorem Fresh.offers_nodup (hp : p.Fresh) : p.offers.Nodup := by
  have hwired := hp.toWired
  unfold offers
  rw [List.nodup_flatMap]
  refine ⟨fun t ht => ?_, ?_⟩
  · rw [List.nodup_flatMap]
    refine ⟨fun d _ => ?_, ?_⟩
    · exact (hp.types_nodup.filter _).map fun _ _ h => (Prod.mk.inj h).2
    · refine ((hp.methods_nodup t ht).filter _).imp_of_mem ?_
      intro d d' _ _ hne o ho ho'
      obtain ⟨c, -, rfl⟩ := List.mem_map.mp ho
      obtain ⟨c', -, heq⟩ := List.mem_map.mp ho'
      exact hne (Prod.mk.inj heq).1.symm
  · -- a default method has one home
    refine hp.types_nodup.imp_of_mem ?_
    intro t t' ht ht' hne o ho ho'
    obtain ⟨d, hd, hc⟩ := List.mem_flatMap.mp ho
    obtain ⟨d', hd', hc'⟩ := List.mem_flatMap.mp ho'
    obtain ⟨c, -, rfl⟩ := List.mem_map.mp hc
    obtain ⟨c', -, heq⟩ := List.mem_map.mp hc'
    obtain ⟨-, hhome⟩ := (mem_defaultsOf hwired ht).mp hd
    obtain ⟨-, hhome'⟩ := (mem_defaultsOf hwired ht').mp hd'
    rw [(Prod.mk.inj heq).1] at hhome'
    exact hne (hhome.symm.trans hhome')

/-- The offers of one default method to one class. -/
theorem filter_offers_of_default (hp : p.Fresh) (t c : TypeRef) (d : MethodRef) :
    (((p.implementors t).map fun c => (d, c)).filter fun o => o.2 == c).map (·.1) =
      if c ∈ p.implementors t then [d] else [] := by
  have hnodup : (p.implementors t).Nodup := hp.types_nodup.filter _
  rw [List.filter_map, List.map_map]
  have hself : (p.implementors t).filter ((fun o : MethodRef × TypeRef => o.2 == c) ∘ fun c => (d, c)) =
      List.replicate ((p.implementors t).count c) c := List.filter_beq c
  rw [hself, List.map_replicate]
  by_cases hc : c ∈ p.implementors t
  · rw [if_pos hc, List.count_eq_one_of_mem hnodup hc]
    rfl
  · rw [if_neg hc, List.count_eq_zero_of_not_mem hc]
    rfl

/-- The offers of one interface to one class. -/
theorem filter_offers_of_type (hp : p.Fresh) (t c : TypeRef) (ds : List MethodRef) :
    ((ds.flatMap fun d => (p.implementors t).map fun c => (d, c)).filter fun o => o.2 == c).map (·.1) =
      if c ∈ p.implementors t then ds else [] := by
  induction ds with
  | nil => simp
  | cons d ds ih =>
    rw [List.flatMap_cons, List.filter_append, List.map_append, ih, filter_offers_of_default hp]
    split <;> rfl

/-- What is offered to a class is what it inherits, in the same order. -/
theorem filter_offers (hp : p.Fresh) (hc : c ∈ p.declared)
    (hclass : (p.type c).isInterface = false) :
    (p.offers.filter fun o => o.2 == c).map (·.1) = p.inherited c := by
  unfold offers inherited
  suffices h : ∀ ts : List TypeRef, (∀ t ∈ ts, t ∈ p.declared) →
      ((ts.flatMap fun t => (p.defaultsOf t).flatMap fun d => (p.implementors t).map fun c =>
        (d, c)).filter fun o => o.2 == c).map (·.1) =
      (ts.filter fun t => (p.type t).isInterface && p.isSubtype c t).flatMap p.defaultsOf from
    h p.declared fun _ ht => ht
  intro ts hall
  induction ts with
  | nil => rfl
  | cons t ts ih =>
    rw [List.forall_mem_cons] at hall
    rw [List.flatMap_cons, List.filter_append, List.map_append, ih hall.2,
      filter_offers_of_type hp, List.filter_cons]
    by_cases hinterface : (p.type t).isInterface = true
    · by_cases hsub : p.isSubtype c t = true
      · rw [if_pos (mem_implementors_iff.mpr ⟨hc, hclass, hsub⟩), hinterface, hsub]
        rfl
      · rw [if_neg fun h => hsub (mem_implementors_iff.mp h).2.2]
        simp only [hsub, Bool.and_false, Bool.false_eq_true, if_false, List.nil_append]
    · simp only [defaultsOf_class hp.toWired hall.1 hinterface, ite_self, hinterface,
        Bool.false_and, Bool.false_eq_true, if_false, List.nil_append]

/-- An offer is the first one for its signature, or an earlier one is. -/
theorem firstInherited_cases (hp : p.Fresh) {done rest : List (MethodRef × TypeRef)}
    (hsplit : p.offers = done ++ (d, c) :: rest) :
    ∃ d', p.firstInherited? c (p.method d).signature = some d' ∧
      (p.method d').signature = (p.method d).signature ∧ (d' = d ∨ (d', c) ∈ done) := by
  have hmem : (d, c) ∈ p.offers := by simp [hsplit]
  obtain ⟨hc, hclass, -⟩ := mem_implementors_iff.mp ((mem_offers hp.toWired).mp hmem).2
  have hinherited : p.inherited c = ((done.filter fun o => o.2 == c).map (·.1)) ++
      d :: ((rest.filter fun o => o.2 == c).map (·.1)) := by
    rw [← filter_offers hp hc hclass, hsplit, List.filter_append, List.filter_cons, beq_self_eq_true,
      if_pos rfl, List.map_append, List.map_cons]
  unfold firstInherited?
  rw [hinherited, List.find?_append]
  cases hfirst : ((done.filter fun o => o.2 == c).map (·.1)).find?
      fun d' => (p.method d').signature == (p.method d).signature with
  | none => exact ⟨d, by simp, rfl, .inl rfl⟩
  | some d' =>
    have hsame := List.find?_some hfirst
    obtain ⟨⟨d'', c'⟩, ho, heq⟩ := List.mem_map.mp (List.mem_of_find?_eq_some hfirst)
    obtain ⟨hdone, hc'⟩ := List.mem_filter.mp ho
    rw [beq_iff_eq] at hsame hc'
    subst heq hc'
    exact ⟨d'', rfl, hsame, .inr hdone⟩

end

/-! ## Section 2: Forwarders -/

/-- In the program `q` that has come of `p`, the method is a forwarder for the default method of the
    offer in the class of the offer. -/
structure ForwarderOf (p q : Program) (o : MethodRef × TypeRef) (m : MethodRef) : Prop where
  new : p.methods.length ≤ m.index
  lt : m.index < q.methods.length
  enclosing : (q.method m).enclosing = some o.2
  name : (q.method m).name = (p.method o.1).name
  result : (q.method m).result = (p.method o.1).result
  access : (q.method m).access = (p.method o.1).access
  thrown : (q.method m).thrown = (p.method o.1).thrown
  params : (q.method m).params.map (fun x => (x.name, x.type, x.final)) =
    (p.method o.1).params.map fun x => (x.name, x.type, x.final)
  static : (q.method m).static = false
  overrides : (q.method m).overrides = [o.1]
  frozen : (q.method m).frozen = true
  /-- It passes the receiver and its parameters on to the twin. -/
  body : ∃ twin, q.twinOf? o.1 = some twin ∧
    (q.method m).body = some (delegation m (q.method m) o.2 twin)

section

variable {p q r : Program} {o : MethodRef × TypeRef} {m : MethodRef}

theorem ForwarderOf.home (h : ForwarderOf p q o m) : q.home m = o.2 := by
  unfold Program.home
  rw [h.enclosing]
  rfl

theorem ForwarderOf.signature (h : ForwarderOf p q o m) :
    (q.method m).signature = (p.method o.1).signature := by
  have htypes := congrArg (List.map fun x : String × TypeName × Bool => x.2.1) h.params
  rw [List.map_map, List.map_map] at htypes
  unfold Method.signature
  rw [h.name]
  exact congrArg (fun ts => (p.method o.1).name ++ "(" ++ String.intercalate "," ts ++ ")") htypes

theorem ForwarderOf.extends (h : ForwarderOf p q o m) (hext : q.Extends r)
    (hsame : r.method m = q.method m) : ForwarderOf p r o m := by
  obtain ⟨twin, htwin, hbody⟩ := h.body
  obtain ⟨hdefault, hstatic⟩ := twinOf_eq_some.mp htwin
  refine ⟨h.new, Nat.lt_of_lt_of_le h.lt hext.length_methods, ?_, ?_, ?_, ?_, ?_, ?_, ?_, ?_, ?_,
    twin, ?_, ?_⟩
  · rw [hsame, h.enclosing]
  · rw [hsame, h.name]
  · rw [hsame, h.result]
  · rw [hsame, h.access]
  · rw [hsame, h.thrown]
  · rw [hsame, h.params]
  · rw [hsame, h.static]
  · rw [hsame, h.overrides]
  · rw [hsame, h.frozen]
  · rw [twinOf_eq_some, hext.isDefault]
    exact ⟨hdefault, hext.staticOf _ twin hdefault hstatic⟩
  · rw [hsame, hbody]

end

/-- The forwarder that the loop adds is one. -/
theorem forwarderOf_withMethod {p q : Program} (hext : p.Extends q) {twin : MethodRef}
    (hd : p.isDefault d = true) (htwin : q.twinOf? d = some twin)
    (hext' : q.Extends (q.withMethod c (Forwarding.forwarderFor q c d twin q.next))) :
    ForwarderOf p (q.withMethod c (Forwarding.forwarderFor q c d twin q.next)) (d, c) q.next := by
  have hlt := lt_of_isDefault hd
  have hself := method_withMethod_self (p := q) (t := c)
    (x := Forwarding.forwarderFor q c d twin q.next) rfl
  obtain ⟨hdefault, hstatic⟩ := twinOf_eq_some.mp htwin
  have hhead := hext.method d hlt
  refine ⟨hext.length_methods, ?_, ?_, ?_, ?_, ?_, ?_, ?_, ?_, ?_, ?_, twin, ?_, ?_⟩
  · rw [length_methods_withMethod rfl]
    exact Nat.lt_succ_self _
  · rw [hself]
  · rw [hself]
    change (q.method d).name = _
    rw [hhead]
  · rw [hself]
    change (q.method d).result = _
    rw [hhead]
  · rw [hself]
    change (q.method d).access = _
    rw [hhead]
  · rw [hself]
    change (q.method d).thrown = _
    rw [hhead]
  · rw [hself]
    change ((q.method d).params.map fun x => { x with pos := (q.type c).pos }).map _ = _
    rw [hhead, List.map_map]
    rfl
  · rw [hself]
    rfl
  · rw [hself]
    rfl
  · rw [hself]
    rfl
  · rw [twinOf_eq_some, hext'.isDefault]
    exact ⟨hdefault, hext'.staticOf _ twin hdefault hstatic⟩
  · rw [hself]
    change some (passingOn (q.type c).pos (q.method d).result twin (.this (q.type c).pos c ::
      paramRefs (q.type c).pos q.next (q.method d).params.length)) = some (delegation q.next _ c twin)
    unfold passingOn paramRefs delegation
    simp only [Forwarding.forwarderFor, List.length_map]

end Program

/-! ## Section 3: One offer -/

namespace Forwarding

open Program

/-- The forwarders up to now belong to the offers made so far that are taken up. -/
structure Exact (p : Program) (done : List (MethodRef × TypeRef)) (s : Forwarding) : Prop
    extends Inv p s where
  forwarders : List.Forall₂ (p.ForwarderOf s.program) (done.filter p.isTaken) s.forwarders
  /-- The methods of a class are its old ones and then its forwarders. -/
  listed : ∀ c, (p.type c).isInterface = false → (s.program.type c).methods =
    (p.type c).methods ++ s.forwarders.filter fun m => s.program.home m = c
  /-- Only default methods have changed. -/
  kept : ∀ m, m.index < p.methods.length → p.isDefault m = false →
    s.program.method m = p.method m

section

variable {p : Program} {s : Forwarding} {done rest : List (MethodRef × TypeRef)} {d twin : MethodRef}
  {c : TypeRef}

/-- What a class declares by now. -/
theorem Exact.declares_iff (hp : p.Fresh) (h : s.Exact p done) (hc : c ∈ p.declared)
    (hclass : (p.type c).isInterface = false) {signature : String} :
    s.program.Declares c signature ↔ p.Declares c signature ∨
      ∃ d, (d, c) ∈ done ∧ p.isTaken (d, c) = true ∧ (p.method d).signature = signature := by
  have hext := h.steps.extends hp.toCoherent
  constructor
  · rintro ⟨m, hm, rfl⟩
    rw [h.listed c hclass] at hm
    rcases List.mem_append.mp hm with hm | hm
    · exact .inl ⟨m, hm, (hext.signature (hp.member c hc m hm).1).symm⟩
    · obtain ⟨hm, hhome⟩ := List.mem_filter.mp hm
      obtain ⟨⟨d, c'⟩, ho, hforwarder⟩ := exists_of_forall₂_right h.forwarders hm
      obtain ⟨hdone, htaken⟩ := List.mem_filter.mp ho
      rw [decide_eq_true_eq, hforwarder.home] at hhome
      subst hhome
      exact .inr ⟨d, hdone, htaken, hforwarder.signature.symm⟩
  · rintro (hdeclares | ⟨d, hdone, htaken, rfl⟩)
    · exact hdeclares.extends hp.toWired hext hc
    · obtain ⟨m, hm, hforwarder⟩ :=
        exists_of_forall₂_left h.forwarders (List.mem_filter.mpr ⟨hdone, htaken⟩)
      refine ⟨m, ?_, hforwarder.signature⟩
      rw [h.listed c hclass]
      refine List.mem_append_right _ (List.mem_filter.mpr ⟨hm, ?_⟩)
      rw [decide_eq_true_eq]
      exact hforwarder.home

/-- The class as it is by now decides like the class as it was. -/
theorem Exact.isTaken_iff (hp : p.Fresh) (h : s.Exact p done)
    (hsplit : p.offers = done ++ (d, c) :: rest) :
    p.isTaken (d, c) = true ↔ ¬s.program.Declares c (p.method d).signature := by
  have hmem : (d, c) ∈ p.offers := by simp [hsplit]
  obtain ⟨hc, hclass, -⟩ := mem_implementors_iff.mp ((mem_offers hp.toWired).mp hmem).2
  rw [h.declares_iff hp hc hclass, Program.isTaken_iff]
  constructor
  · rintro ⟨hnot, hfirst⟩ (hdeclares | ⟨d', hdone, htaken, hsame⟩)
    · exact hnot hdeclares
    · -- both are the first, so the offer would have been made before
      obtain ⟨-, hfirst'⟩ := Program.isTaken_iff.mp htaken
      rw [hsame, hfirst, Option.some.injEq] at hfirst'
      subst hfirst'
      have hnodup := hp.offers_nodup
      rw [hsplit, List.nodup_append] at hnodup
      exact hnodup.2.2 _ hdone _ List.mem_cons_self rfl
  · intro hnot
    rw [not_or] at hnot
    refine ⟨hnot.1, ?_⟩
    obtain ⟨d', hfirst, hsame, hd'⟩ := firstInherited_cases hp hsplit
    rcases hd' with rfl | hdone
    · exact hfirst
    · -- the earlier offer was taken up
      refine absurd ⟨d', hdone, Program.isTaken_iff.mpr ⟨?_, ?_⟩, hsame⟩ hnot.2
      · rw [hsame]
        exact hnot.1
      · rw [hsame]
        exact hfirst

theorem Exact.withForwarder (hp : p.Fresh) (h : s.Exact p done) (hd : p.isDefault d = true)
    (htwin : s.program.staticOf? d = some twin) (hc : c ∈ p.declared)
    (htaken : p.isTaken (d, c) = true)
    (hinv : Inv p { s with
      program := s.program.withMethod c (forwarderFor s.program c d twin s.program.next)
      forwarders := s.forwarders ++ [s.program.next] })
    (hext : s.program.Extends
      (s.program.withMethod c (forwarderFor s.program c d twin s.program.next))) :
    Exact p (done ++ [(d, c)]) { s with
      program := s.program.withMethod c (forwarderFor s.program c d twin s.program.next)
      forwarders := s.forwarders ++ [s.program.next] } := by
  have hbegin := h.steps.extends hp.toCoherent
  have htwin' : s.program.twinOf? d = some twin := by
    rw [twinOf_eq_some, hbegin.isDefault]
    exact ⟨hd, htwin⟩
  have hnew := forwarderOf_withMethod hbegin hd htwin' hext
  refine ⟨hinv, ?_, ?_, ?_⟩
  · rw [List.filter_append, List.filter_cons, htaken, if_pos rfl, List.filter_nil]
    refine List.rel_append (h.forwarders.imp ?_) (.cons hnew .nil)
    intro o m hm
    exact hm.extends hext (method_withMethod_ne rfl (ne_next_of_lt hm.lt))
  · intro u hu
    -- the old forwarders stay where they are
    have hold : (s.forwarders.filter fun m => (s.program.withMethod c
        (forwarderFor s.program c d twin s.program.next)).home m = u) =
        s.forwarders.filter fun m => s.program.home m = u := by
      apply List.filter_congr
      intro m hm
      obtain ⟨o, -, hforwarder⟩ := exists_of_forall₂_right h.forwarders hm
      rw [hext.home hforwarder.lt]
    change ((s.program.withMethod c
      (forwarderFor s.program c d twin s.program.next)).type u).methods = _
    rw [List.filter_append, hold]
    by_cases huc : u = c
    · have hself : [s.program.next].filter (fun m => (s.program.withMethod c
          (forwarderFor s.program c d twin s.program.next)).home m = u) = [s.program.next] := by
        simp [hnew.home, huc]
      rw [hself, huc, type_withMethod_self rfl (by rw [hbegin.length_types]; exact hp.declared_lt c hc),
        ← List.append_assoc, ← h.listed c (huc ▸ hu)]
    · have hother : [s.program.next].filter (fun m => (s.program.withMethod c
          (forwarderFor s.program c d twin s.program.next)).home m = u) = [] := by
        simp [hnew.home, Ne.symm huc]
      rw [hother, List.append_nil, type_withMethod_ne rfl huc, h.listed u hu]
  · intro m hm hdefault
    rw [← h.kept m hm hdefault]
    exact method_withMethod_ne rfl (ne_next_of_lt (Nat.lt_of_lt_of_le hm hbegin.length_methods))

/-- One offer. -/
theorem addForwarder_exact (hp : p.Fresh) (h : s.Exact p done)
    (htwin : s.program.staticOf? d = some twin) (hsplit : p.offers = done ++ (d, c) :: rest) :
    (s.addForwarder d twin c).Exact p (done ++ [(d, c)]) ∧
      (s.addForwarder d twin c).program.staticOf? d = some twin := by
  have hbegin := h.steps.extends hp.toCoherent
  have hmem : (d, c) ∈ p.offers := by simp [hsplit]
  obtain ⟨hd, himplements⟩ := (mem_offers hp.toWired).mp hmem
  obtain ⟨hc, hclass⟩ := mem_implementors himplements
  have hd' : s.program.isDefault d = true := by
    rw [hbegin.isDefault]
    exact hd
  have hc' : c ∈ s.program.declared ∧ (s.program.type c).isInterface = false := by
    rw [hbegin.declared, DeclaredType.isInterface, hbegin.typeKind]
    exact ⟨hc, hclass⟩
  obtain ⟨hinv, hext, -⟩ := addForwarder_inv hp.toCoherent h.toInv hd' htwin hc'.1 hc'.2
  have htaken := h.isTaken_iff hp hsplit
  rw [← hbegin.signature (lt_of_isDefault hd), ← ownMethod_isSome] at htaken
  refine ⟨?_, hext.staticOf d twin hd' htwin⟩
  unfold addForwarder at hinv hext ⊢
  by_cases hown : (s.program.ownMethod? c (s.program.method d).signature).isSome = true
  · -- the offer is not taken up, and nothing is changed
    simp only [hown, if_true]
    have hnot : p.isTaken (d, c) = false := by simpa [hown] using htaken
    refine ⟨h.toInv, ?_, h.listed, h.kept⟩
    rw [List.filter_append, List.filter_cons, hnot]
    simpa using h.forwarders
  · simp only [hown, Bool.false_eq_true, if_false] at hinv hext ⊢
    exact h.withForwarder hp hd htwin hc (htaken.mpr hown) hinv hext

/-! ## Section 4: All offers -/

theorem foldl_addForwarder_exact (hp : p.Fresh) (h : s.Exact p done)
    (htwin : s.program.staticOf? d = some twin) {classes : List TypeRef}
    (hsplit : p.offers = done ++ ((classes.map fun c => (d, c)) ++ rest)) :
    (classes.foldl (fun s c => s.addForwarder d twin c) s).Exact p
      (done ++ classes.map fun c => (d, c)) := by
  induction classes generalizing s done with
  | nil =>
    rw [List.map_nil, List.append_nil]
    exact h
  | cons c cs ih =>
    obtain ⟨h₁, htwin₁⟩ := addForwarder_exact hp h htwin hsplit
    rw [List.map_cons, List.append_cons]
    refine ih h₁ htwin₁ ?_
    rw [hsplit]
    simp

/-- The twin that is made for an offer changes no class. -/
theorem Exact.withTwin (hp : p.Fresh) (h : s.Exact p done) (hd : p.isDefault d = true)
    (hnone : s.program.staticOf? d = none) (hneeded : p.implementors (p.home d) ≠ [])
    (log : TwinLog) :
    Exact p done { s with program := s.program.withTwin d, twinLog := log } := by
  have hbegin := h.steps.extends hp.toCoherent
  have hcoherent := h.steps.coherent hp.toCoherent
  have hd' : s.program.isDefault d = true := by
    rw [hbegin.isDefault]
    exact hd
  have hstep : Step (permit p) s.program (s.program.withTwin d) := .twin d hd' hnone hneeded
  have hext := hstep.extends hcoherent
  -- a forwarder is newer than every default method, and older than the twin
  have hforwarder : ∀ o m, p.ForwarderOf s.program o m →
      (s.program.withTwin d).method m = s.program.method m := by
    intro o m hm
    refine method_withTwin_other ?_ (ne_next_of_lt hm.lt)
    rintro rfl
    exact absurd (lt_of_isDefault hd) (Nat.not_lt.mpr hm.new)
  refine ⟨⟨h.steps.tail hstep, h.fault⟩, ?_, ?_, ?_⟩
  · exact h.forwarders.imp fun o m hm => hm.extends hext (hforwarder o m hm)
  · intro c hclass
    -- the twin is in an interface
    have hc : c ≠ s.program.home d := by
      rintro rfl
      have hinterface := isInterface_home hd
      rw [hbegin.home (lt_of_isDefault hd), hinterface] at hclass
      cases hclass
    change ((s.program.withMethod (s.program.home d) (s.program.twinMethod d)).type c).methods = _
    rw [type_withMethod_ne (x := s.program.twinMethod d) rfl hc, h.listed c hclass]
    congr 1
    apply List.filter_congr
    intro m hm
    obtain ⟨o, -, hm⟩ := exists_of_forall₂_right h.forwarders hm
    rw [hext.home hm.lt]
  · intro m hm hdefault
    rw [← h.kept m hm hdefault]
    refine method_withTwin_other ?_
      (ne_next_of_lt (Nat.lt_of_lt_of_le hm hbegin.length_methods))
    rintro rfl
    rw [hd] at hdefault
    cases hdefault

theorem addForwarders_exact (hp : p.Fresh) (h : s.Exact p done) (hd : p.isDefault d = true)
    {classes : List TypeRef} (hclasses : p.implementors (p.home d) = classes) (hsome : classes ≠ [])
    (hsplit : p.offers = done ++ ((classes.map fun c => (d, c)) ++ rest)) :
    (s.addForwarders classes d).Exact p (done ++ classes.map fun c => (d, c)) := by
  have hbegin := h.steps.extends hp.toCoherent
  have hcoherent := h.steps.coherent hp.toCoherent
  have hd' : s.program.isDefault d = true := by
    rw [hbegin.isDefault]
    exact hd
  unfold addForwarders
  rw [h.fault, requestTwin_eq hcoherent hd']
  cases htwin : s.program.staticOf? d with
  | some => exact foldl_addForwarder_exact hp h htwin hsplit
  | none =>
    have h₁ := h.withTwin hp hd htwin (by rw [hclasses]; exact hsome)
      ⟨s.twinLog.made ++ [s.program.next]⟩
    rw [h.fault] at h₁
    refine foldl_addForwarder_exact hp h₁ ?_ hsplit
    exact (staticOf_withTwin hcoherent hd' htwin hd').trans (if_pos rfl)

theorem foldl_addForwarders_exact (hp : p.Fresh) (h : s.Exact p done) {classes : List TypeRef}
    (hclasses : p.implementors t = classes) (hsome : classes ≠ []) {ds : List MethodRef}
    (hds : ∀ d ∈ ds, p.isDefault d = true ∧ p.home d = t)
    (hsplit : p.offers = done ++ ((ds.flatMap fun d => classes.map fun c => (d, c)) ++ rest)) :
    (ds.foldl (fun s d => s.addForwarders classes d) s).Exact p
      (done ++ ds.flatMap fun d => classes.map fun c => (d, c)) := by
  induction ds generalizing s done with
  | nil =>
    rw [List.flatMap_nil, List.append_nil]
    exact h
  | cons d ds ih =>
    rw [List.forall_mem_cons] at hds
    obtain ⟨⟨hd, hhome⟩, hds⟩ := hds
    rw [List.flatMap_cons, List.append_assoc] at hsplit
    have h₁ := addForwarders_exact hp h hd (by rw [hhome, hclasses]) hsome hsplit
    rw [List.flatMap_cons, ← List.append_assoc]
    refine ih h₁ hds ?_
    rw [hsplit, List.append_assoc]

/-- The offers of one type. -/
theorem addForType_exact (hp : p.Fresh) (h : s.Exact p done) (ht : t ∈ p.declared)
    (hsplit : p.offers = done ++ (((p.defaultsOf t).flatMap fun d =>
      (p.implementors t).map fun c => (d, c)) ++ rest)) :
    (s.addForType t).Exact p
      (done ++ (p.defaultsOf t).flatMap fun d => (p.implementors t).map fun c => (d, c)) := by
  have hbegin := h.steps.extends hp.toCoherent
  unfold addForType
  rw [hbegin.implementors, h.steps.defaultsOf hp.toCoherent, DeclaredType.isInterface,
    hbegin.typeKind, h.fault]
  by_cases hinterface : (p.type t).isInterface = true
  · have hkind : ((p.type t).kind == .interfaceType) = true := hinterface
    simp only [hkind, Option.isSome_none, Bool.not_true, Bool.or_self, Bool.false_eq_true, if_false]
    by_cases hclasses : p.implementors t = []
    · have hnil : (p.defaultsOf t).flatMap (fun d => ([] : List TypeRef).map fun c => (d, c)) = [] := by
        simp
      simp only [hclasses, List.isEmpty_nil, if_true, hnil, List.append_nil]
      exact h
    · simp only [List.isEmpty_iff, hclasses, if_false]
      exact foldl_addForwarders_exact hp h rfl hclasses
        (fun d hd => (mem_defaultsOf hp.toWired ht).mp hd) hsplit
  · have hkind : ((p.type t).kind == .interfaceType) = false :=
      Bool.eq_false_iff.mpr hinterface
    rw [defaultsOf_class hp.toWired ht hinterface, List.flatMap_nil, List.append_nil]
    simp only [hkind, Bool.not_false, Bool.or_true, if_true]
    exact h

theorem foldl_addForType_exact (hp : p.Fresh) (h : s.Exact p done) {ts : List TypeRef}
    (hts : ∀ t ∈ ts, t ∈ p.declared)
    (hsplit : p.offers = done ++ ts.flatMap fun t => (p.defaultsOf t).flatMap fun d =>
      (p.implementors t).map fun c => (d, c)) :
    (ts.foldl addForType s).Exact p p.offers := by
  induction ts generalizing s done with
  | nil =>
    rw [List.flatMap_nil, List.append_nil] at hsplit
    rw [hsplit]
    exact h
  | cons t ts ih =>
    rw [List.forall_mem_cons] at hts
    rw [List.flatMap_cons] at hsplit
    refine ih (addForType_exact hp h hts.1 hsplit) hts.2 ?_
    rw [hsplit, List.append_assoc]

/-- The run makes all offers. -/
theorem run_exact (hp : p.Fresh) (log : TwinLog) : (run p log).Exact p p.offers := by
  have hstart : Exact p [] { program := p, twinLog := log } :=
    ⟨⟨.refl (a := p), rfl⟩, .nil, fun c _ => (List.append_nil _).symm, fun _ _ _ => rfl⟩
  exact foldl_addForType_exact hp hstart (fun _ ht => ht) rfl

end

end Forwarding

/-! ## Section 5: The specification -/

namespace Program

/-- The method has been added to the class. -/
def AddedTo (p q : Program) (c : TypeRef) (m : MethodRef) : Prop :=
  m ∈ (q.type c).methods ∧ m ∉ (p.type c).methods

/-- What the addition of forwarders does to a program. -/
structure Forwarded (p : Program) (r : Forwarding) : Prop where
  fault : r.fault = none
  /-- A class gets a method with a signature if and only if it declares none itself, and some
      interface that links lead to declares a default method with it. -/
  added_iff : ∀ c ∈ p.declared, (p.type c).isInterface = false → ∀ signature,
    (∃ m, p.AddedTo r.program c m ∧ (r.program.method m).signature = signature) ↔
      ¬p.Declares c signature ∧ ∃ t ∈ p.declared, (p.type t).isInterface = true ∧ p.Inherits c t ∧
        ∃ d ∈ (p.type t).methods, p.isDefault d = true ∧ (p.method d).signature = signature
  /-- It gets one. -/
  once : ∀ c ∈ p.declared, (p.type c).isInterface = false → (r.program.type c).methods.Nodup ∧
    ∀ m k, p.AddedTo r.program c m → p.AddedTo r.program c k →
      (r.program.method m).signature = (r.program.method k).signature → m = k
  /-- It is a forwarder for the first default method with the signature. -/
  forwards : ∀ c ∈ p.declared, (p.type c).isInterface = false → ∀ m, p.AddedTo r.program c m →
    ∃ d, p.firstInherited? c (r.program.method m).signature = some d ∧
      p.ForwarderOf r.program (d, c) m
  /-- The forwarders in the order of interfaces, default methods and classes. -/
  ordered : List.Forall₂ (p.ForwarderOf r.program) (p.offers.filter p.isTaken) r.forwarders
  appended : ∀ c ∈ p.declared, (p.type c).isInterface = false → (r.program.type c).methods =
    (p.type c).methods ++ r.forwarders.filter fun m => r.program.home m = c
  /-- The methods that a class had are not touched. -/
  kept : ∀ c ∈ p.declared, (p.type c).isInterface = false → ∀ m ∈ (p.type c).methods,
    r.program.method m = p.method m

/-- A forwarder belongs to one offer. -/
theorem ForwarderOf.unique {p q : Program} {o o' : MethodRef × TypeRef} (h : ForwarderOf p q o m)
    (h' : ForwarderOf p q o' m) : o = o' := by
  have hclass := h.home.symm.trans h'.home
  have hdefault := h.overrides.symm.trans h'.overrides
  exact Prod.ext (List.cons.inj hdefault).1 hclass

end Program

theorem nodup_of_forall₂ {α β : Type} {R : α → β → Prop} {xs : List α} {ys : List β}
    (h : List.Forall₂ R xs ys) (hR : ∀ x x' y, R x y → R x' y → x = x') (hxs : xs.Nodup) :
    ys.Nodup := by
  induction h with
  | nil => exact List.nodup_nil
  | cons hxy hrest ih =>
    rw [List.nodup_cons] at hxs ⊢
    refine ⟨fun hy => ?_, ih hxs.2⟩
    obtain ⟨x', hx', hxy'⟩ := exists_of_forall₂_right hrest hy
    exact hxs.1 (hR _ _ _ hxy hxy' ▸ hx')

theorem eq_of_forall₂ {α β : Type} {R : α → β → Prop} {xs : List α} {ys : List β}
    (h : List.Forall₂ R xs ys) (hR : ∀ x x' y, R x y → R x' y → x = x') (hxs : xs.Nodup) {x : α}
    {y y' : β} (hy : y ∈ ys) (hy' : y' ∈ ys) (hxy : R x y) (hxy' : R x y') : y = y' := by
  induction h with
  | nil => cases hy
  | @cons x₀ y₀ xs ys hhead hrest ih =>
    rw [List.nodup_cons] at hxs
    -- the partner of a later element is no partner of the first one
    have hlater : ∀ z, R x z → z ∈ ys → x ≠ x₀ := by
      intro z hxz hz heq
      obtain ⟨x', hx', hxz'⟩ := exists_of_forall₂_right hrest hz
      rw [← hR _ _ _ hxz hxz', heq] at hx'
      exact hxs.1 hx'
    rcases List.mem_cons.mp hy with rfl | hmem <;> rcases List.mem_cons.mp hy' with rfl | hmem'
    · rfl
    · exact absurd (hR _ _ _ hxy hhead) (hlater y' hxy' hmem')
    · exact absurd (hR _ _ _ hxy' hhead) (hlater y hxy hmem)
    · exact ih hxs.2 hmem hmem'

namespace Forwarding

open Program

section

variable {p : Program} {r : Forwarding}

/-- What has been added to a class is a forwarder that was taken up. -/
theorem Exact.forwarder_of_added (h : r.Exact p p.offers) (hclass : (p.type c).isInterface = false)
    (hm : p.AddedTo r.program c m) :
    m ∈ r.forwarders ∧ ∃ d, p.isTaken (d, c) = true ∧ p.ForwarderOf r.program (d, c) m := by
  obtain ⟨hmem, hnew⟩ := hm
  rw [h.listed c hclass] at hmem
  obtain ⟨hlisted, hhome⟩ := List.mem_filter.mp ((List.mem_append.mp hmem).resolve_left hnew)
  obtain ⟨⟨d, c'⟩, ho, hforwarder⟩ := exists_of_forall₂_right h.forwarders hlisted
  rw [decide_eq_true_eq, hforwarder.home] at hhome
  subst hhome
  exact ⟨hlisted, d, (List.mem_filter.mp ho).2, hforwarder⟩

theorem Exact.added_of_taken (hp : p.Fresh) (h : r.Exact p p.offers) (hc : c ∈ p.declared)
    (hclass : (p.type c).isInterface = false) (hmem : (d, c) ∈ p.offers)
    (htaken : p.isTaken (d, c) = true) :
    ∃ m, p.AddedTo r.program c m ∧ p.ForwarderOf r.program (d, c) m := by
  obtain ⟨m, hm, hforwarder⟩ :=
    exists_of_forall₂_left h.forwarders (List.mem_filter.mpr ⟨hmem, htaken⟩)
  refine ⟨m, ⟨?_, ?_⟩, hforwarder⟩
  · rw [h.listed c hclass]
    refine List.mem_append_right _ (List.mem_filter.mpr ⟨hm, ?_⟩)
    rw [decide_eq_true_eq]
    exact hforwarder.home
  · intro hold
    exact absurd (hp.member c hc m hold).1 (Nat.not_lt.mpr hforwarder.new)

/-- A class inherits a default method with the signature if and only if there is a first one. -/
theorem firstInherited_isSome (hp : p.Wired) {signature : String} :
    (p.firstInherited? c signature).isSome = true ↔
      ∃ t ∈ p.declared, (p.type t).isInterface = true ∧ p.Inherits c t ∧
        ∃ d ∈ (p.type t).methods, p.isDefault d = true ∧ (p.method d).signature = signature := by
  unfold firstInherited?
  rw [List.find?_isSome]
  constructor
  · rintro ⟨d, hd, hsame⟩
    obtain ⟨hdefault, hsub⟩ := (mem_inherited hp).mp hd
    obtain ⟨hhome, -, hmem⟩ := hp.home_declared (lt_of_isDefault hdefault)
    exact ⟨p.home d, hhome, isInterface_home hdefault, isSubtype_iff.mp hsub, d, hmem, hdefault,
      beq_iff_eq.mp hsame⟩
  · rintro ⟨t, ht, -, hinherits, d, hmem, hdefault, hsame⟩
    have hhome : p.home d = t := by
      unfold Program.home
      rw [(hp.member t ht d hmem).2]
      rfl
    refine ⟨d, (mem_inherited hp).mpr ⟨hdefault, ?_⟩, beq_iff_eq.mpr hsame⟩
    rw [hhome]
    exact isSubtype_iff.mpr hinherits

/-- What has been added forwards to the first default method with its signature. -/
theorem Exact.forwards (h : r.Exact p p.offers) (hclass : (p.type c).isInterface = false)
    (hm : p.AddedTo r.program c m) :
    ∃ d, p.firstInherited? c (r.program.method m).signature = some d ∧
      p.ForwarderOf r.program (d, c) m := by
  obtain ⟨-, d, htaken, hforwarder⟩ := h.forwarder_of_added hclass hm
  refine ⟨d, ?_, hforwarder⟩
  rw [hforwarder.signature]
  exact (Program.isTaken_iff.mp htaken).2

/-- The signatures with which a method is added to a class. -/
theorem Exact.added_iff (hp : p.Fresh) (h : r.Exact p p.offers) (hc : c ∈ p.declared)
    (hclass : (p.type c).isInterface = false) (signature : String) :
    (∃ m, p.AddedTo r.program c m ∧ (r.program.method m).signature = signature) ↔
      ¬p.Declares c signature ∧ (p.firstInherited? c signature).isSome = true := by
  constructor
  · rintro ⟨m, hm, rfl⟩
    obtain ⟨-, d, htaken, hforwarder⟩ := h.forwarder_of_added hclass hm
    obtain ⟨hnot, hfirst⟩ := Program.isTaken_iff.mp htaken
    rw [hforwarder.signature]
    exact ⟨hnot, by rw [hfirst]; rfl⟩
  · rintro ⟨hnot, hsome⟩
    obtain ⟨d, hd⟩ := Option.isSome_iff_exists.mp hsome
    have hsame := List.find?_some (p := fun d => (p.method d).signature == signature) hd
    rw [beq_iff_eq] at hsame
    obtain ⟨hdefault, hsub⟩ := (mem_inherited hp.toWired).mp (List.mem_of_find?_eq_some hd)
    subst hsame
    -- the first default method with the signature is offered, and the offer is taken up
    have hoffer : (d, c) ∈ p.offers :=
      (mem_offers hp.toWired).mpr ⟨hdefault, mem_implementors_iff.mpr ⟨hc, hclass, hsub⟩⟩
    obtain ⟨m, hm, hforwarder⟩ :=
      h.added_of_taken hp hc hclass hoffer (Program.isTaken_iff.mpr ⟨hnot, hd⟩)
    exact ⟨m, hm, hforwarder.signature⟩

/-- No two methods that are added to a class have the same signature. -/
theorem Exact.eq_of_signature (hp : p.Fresh) (h : r.Exact p p.offers)
    (hclass : (p.type c).isInterface = false) {k : MethodRef} (hm : p.AddedTo r.program c m)
    (hk : p.AddedTo r.program c k)
    (hsame : (r.program.method m).signature = (r.program.method k).signature) : m = k := by
  obtain ⟨d, hd, hforwarder⟩ := h.forwards hclass hm
  obtain ⟨d', hd', hforwarder'⟩ := h.forwards hclass hk
  rw [hsame, hd', Option.some.injEq] at hd
  subst hd
  exact eq_of_forall₂ h.forwarders (fun _ _ _ => ForwarderOf.unique) (hp.offers_nodup.filter _)
    (h.forwarder_of_added hclass hm).1 (h.forwarder_of_added hclass hk).1 hforwarder hforwarder'

/-- No method stands in a class twice. -/
theorem Exact.methods_nodup (hp : p.Fresh) (h : r.Exact p p.offers) (hc : c ∈ p.declared)
    (hclass : (p.type c).isInterface = false) :
    (r.program.type c).methods.Nodup := by
  have hforwarders : r.forwarders.Nodup :=
    nodup_of_forall₂ h.forwarders (fun _ _ _ => ForwarderOf.unique) (hp.offers_nodup.filter _)
  rw [h.listed c hclass, List.nodup_append]
  refine ⟨hp.methods_nodup c hc, hforwarders.filter _, ?_⟩
  rintro m hm _ hk rfl
  obtain ⟨o, -, hforwarder⟩ := exists_of_forall₂_right h.forwarders (List.mem_filter.mp hk).1
  exact absurd (hp.member c hc m hm).1 (Nat.not_lt.mpr hforwarder.new)

/-- The methods of a class are no default methods, and so they are kept. -/
theorem Exact.kept_in_class (hp : p.Fresh) (h : r.Exact p p.offers) (hc : c ∈ p.declared)
    (hclass : (p.type c).isInterface = false) (hm : m ∈ (p.type c).methods) :
    r.program.method m = p.method m := by
  obtain ⟨hlt, henclosing⟩ := hp.member c hc m hm
  refine h.kept m hlt ?_
  cases hdefault : p.isDefault m with
  | false => rfl
  | true =>
    have hinterface := isInterface_home hdefault
    rw [Program.home, henclosing, Option.getD_some, hclass] at hinterface
    cases hinterface

/-- The forwarders of a loaded program: a class gets one for every signature that it does not declare
    and that it inherits a default method with, for the first such default method. -/
theorem run_forwarded (hp : p.Loaded) (log : TwinLog) : p.Forwarded (run p log) := by
  have hfresh := hp.fresh
  have h := run_exact hfresh log
  refine ⟨h.fault, ?_, ?_, ?_, h.forwarders, fun c _ => h.listed c, ?_⟩
  · intro c hc hclass signature
    rw [← firstInherited_isSome hfresh.toWired]
    exact h.added_iff hfresh hc hclass signature
  · intro c hc hclass
    exact ⟨h.methods_nodup hfresh hc hclass, fun m k => h.eq_of_signature hfresh hclass⟩
  · intro c _ hclass m
    exact h.forwards hclass
  · intro c hc hclass m
    exact h.kept_in_class hfresh hc hclass

theorem run_forwarded_greeting : greetingProgram.Loaded ∧
    greetingProgram.Forwarded (run greetingProgram {}) ∧
    (run greetingProgram {}).forwarders.length = 2 :=
  ⟨greeting_loaded, run_forwarded greeting_loaded {}, by decide +kernel⟩

end

end Forwarding

end DefaultLowering
