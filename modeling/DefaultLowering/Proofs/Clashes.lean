import DefaultLowering.Proofs.Admission
import DefaultLowering.Proofs.Descriptors
import DefaultLowering.Proofs.SingleTwin

/-!
# Clashes with twins

A forwarder is added to a class only if no method of the class has its signature.  A twin is added to its
interface without such a question, under the name of the default method with `$static` behind it.  So it
may get the signature that a declared method of the interface has, or another twin, and then a key or an
identifier stands for two methods.

- `NeedsTwin`, `twinSignature`: the twins that a run will make, told from the loaded program;
- `Phases.addedTo`, `Phases.twin_of_new`: what a run adds to a class and to an interface;
- `TwinsFree`: the signatures of these twins are free, which decides whether all signatures are apart
  after the run (`Phases.apart_iff`);
- `lower_toldApart`: which methods can clash, and when none do;
- `lower_clash`: a program with a clash.
-/

namespace DefaultLowering.Program

variable {d m : MethodRef} {t : TypeRef}

variable {p q : Program} {cache cache' : NameCache}

/-! ## Section 1: Twins to come -/

/-- A default method for which a twin will be made. -/
def NeedsTwin (p : Program) (d : MethodRef) : Prop :=
  p.isDefault d = true ∧ (p.implementors (p.home d) ≠ [] ∨ p.Uses d)

/-- The signature that the twin of a default method gets. -/
def twinSignature (p : Program) (d : MethodRef) : String :=
  (p.method d).name ++ twinEnding ++ "(" ++
    String.intercalate "," (p.enclosingName d :: (p.method d).params.map Param.type) ++ ")"

theorem Phases.needsTwin_iff (h : Phases p cache q cache') (hp : p.Fresh) :
    p.NeedsTwin d ↔ ∃ t, q.twinOf? d = some t := by
  have hext := h.steps.extends hp.toCoherent
  constructor
  · rintro ⟨hd, hneeded⟩
    exact Option.isSome_iff_exists.mp ((h.needed_iff hp hd).mpr hneeded)
  · rintro ⟨t, ht⟩
    have hd : p.isDefault d = true := by
      rw [← hext.isDefault]
      exact (twinOf_eq_some.mp ht).1
    refine ⟨hd, (h.needed_iff hp hd).mp ?_⟩
    rw [ht]
    rfl

/-- The name of the type that declares a method. -/
theorem Wired.enclosingName_eq (hp : p.Wired) (hm : m.index < p.methods.length) :
    p.enclosingName m = (p.type (p.home m)).name := by
  simp only [enclosingName, (hp.home_declared hm).2.1]

theorem Wired.home_of_mem (hp : p.Wired) (ht : t ∈ p.declared) (hm : m ∈ (p.type t).methods) :
    p.home m = t := by
  rw [home, (hp.member t ht m hm).2]
  rfl

theorem Wired.enclosingName_eq_iff (hp : p.Wired) {k : MethodRef} (hm : m.index < p.methods.length)
    (hk : k.index < p.methods.length) :
    p.enclosingName m = p.enclosingName k ↔ p.home m = p.home k := by
  rw [hp.enclosingName_eq hm, hp.enclosingName_eq hk]
  exact ⟨hp.name_inj _ (hp.home_declared hm).1 _ (hp.home_declared hk).1, fun h => by rw [h]⟩

/-- A twin belongs to one default method. -/
theorem Coherent.eq_of_twinOf (hq : q.Coherent) {d' t : MethodRef} (ht : q.twinOf? d = some t)
    (ht' : q.twinOf? d' = some t) : d = d' := by
  obtain ⟨hd, hstatic⟩ := twinOf_eq_some.mp ht
  obtain ⟨hd', hstatic'⟩ := twinOf_eq_some.mp ht'
  exact hq.twin_inj d d' t hd hd' hstatic hstatic'

section

variable (hext : p.Extends q) (hq : q.Coherent) {d t : MethodRef} (ht : q.twinOf? d = some t)

include hext hq ht

/-- A twin is a static method of the interface of its default method. -/
theorem isTwin_of_twinOf : p.isDefault d = true ∧ q.IsTwin d t := by
  obtain ⟨hd, hstatic⟩ := twinOf_eq_some.mp ht
  refine ⟨?_, hq.twin d t hd hstatic⟩
  rw [← hext.isDefault]
  exact hd

theorem enclosing_twin : (q.method t).enclosing = some (p.home d) := by
  obtain ⟨hd, htwin⟩ := isTwin_of_twinOf hext hq ht
  rw [htwin.enclosing, hext.enclosing (lt_of_isDefault hd)]
  exact enclosing_of_isDefault hd

theorem mem_methods_twin : t ∈ (q.type (p.home d)).methods := by
  obtain ⟨-, htwin⟩ := isTwin_of_twinOf hext hq ht
  obtain ⟨u, -, henclosing, hmem⟩ := hq.owner t htwin.lt
  rw [enclosing_twin hext hq ht, Option.some.injEq] at henclosing
  rw [henclosing]
  exact hmem

theorem signature_twin : (q.method t).signature = p.twinSignature d := by
  obtain ⟨hd, htwin⟩ := isTwin_of_twinOf hext hq ht
  have hlt := lt_of_isDefault hd
  have hname : (q.method d).name = (p.method d).name := by rw [hext.method d hlt]
  have hparams : (q.method d).params = (p.method d).params := by rw [hext.method d hlt]
  unfold Method.signature twinSignature
  rw [htwin.name, htwin.params, hname, hparams, hext.enclosingName hlt, List.map_cons]

end

/-! ## Section 2: The methods of a type -/

/-- What has been added to a class in a run are its forwarders. -/
theorem Phases.addedTo (h : Phases p cache q cache') (hp : p.Fresh) {c : TypeRef}
    (hc : c ∈ p.declared) (hclass : (p.type c).isInterface = false) (hm : m ∈ (q.type c).methods)
    (hnew : m ∉ (p.type c).methods) : p.AddedTo p.forwarded c m := by
  have hforwarded := h.forwarding.coherent hp.toCoherent
  have hext := h.steps.extends hp.toCoherent
  have hwalk := h.walking.extends hforwarded
  obtain ⟨hlt, henclosing⟩ := h.lowered.coherent.member c (hext.declared ▸ hc) m hm
  refine ⟨?_, hnew⟩
  by_cases hbefore : m.index < p.forwarded.methods.length
  · obtain ⟨t, -, ht, hmem⟩ := hforwarded.owner m hbefore
    rw [← hwalk.enclosing hbefore, henclosing, Option.some.injEq] at ht
    rw [ht]
    exact hmem
  · -- the walk adds twins only, and these stand in interfaces
    rcases h.walking.created hforwarded (Nat.le_of_not_lt hbefore) hlt with ⟨d, hd, ht⟩ | ⟨hfalse, -⟩
    · have hhome := enclosing_twin hext h.lowered.coherent (twinOf_eq_some.mpr ⟨hd, ht⟩)
      rw [henclosing, Option.some.injEq] at hhome
      rw [hext.isDefault] at hd
      rw [hhome, isInterface_home hd] at hclass
      cases hclass
    · exact hfalse.elim

/-- What has been added to an interface in a run are twins of its default methods. -/
theorem Phases.twin_of_new (h : Phases p cache q cache') (hp : p.Fresh) (ht : t ∈ p.declared)
    (hinterface : (p.type t).isInterface = true) (hm : m ∈ (q.type t).methods)
    (hnew : m ∉ (p.type t).methods) :
    ∃ d, q.twinOf? d = some m ∧ p.home d = t := by
  have hext := h.steps.extends hp.toCoherent
  obtain ⟨hlt, henclosing⟩ := h.lowered.coherent.member t (hext.declared ▸ ht) m hm
  have hge : p.methods.length ≤ m.index := by
    refine Nat.le_of_not_lt fun hbefore => hnew ?_
    obtain ⟨u, -, hu, hmem⟩ := hp.owner m hbefore
    rw [← hext.enclosing hbefore, henclosing, Option.some.injEq] at hu
    rw [hu]
    exact hmem
  rcases h.created hp hge hlt with ⟨d, hd⟩ | ⟨d, c, hclass, hforwarder⟩
  · have hhome := enclosing_twin hext h.lowered.coherent hd
    rw [henclosing, Option.some.injEq] at hhome
    exact ⟨d, hd, hhome.symm⟩
  · rw [hforwarder.enclosing, Option.some.injEq] at henclosing
    subst henclosing
    rw [hinterface] at hclass
    cases hclass

/-- The signatures of the old methods stay apart. -/
theorem Fresh.eq_of_signature (hp : p.Fresh) (hext : p.Extends q) (ht : t ∈ p.declared)
    {k : MethodRef} (hm : m ∈ (p.type t).methods) (hk : k ∈ (p.type t).methods)
    (h : (q.method m).signature = (q.method k).signature) : m = k := by
  rw [hext.signature (hp.member t ht m hm).1, hext.signature (hp.member t ht k hk).1] at h
  exact hp.distinct t ht m hm k hk h

/-- The signatures of a class stay apart, because forwarders are only added where they are missing. -/
theorem Phases.apart_class (h : Phases p cache q cache') (hp : p.Fresh) {c : TypeRef}
    (hc : c ∈ p.declared) (hclass : (p.type c).isInterface = false) : q.ApartIn [c] := by
  have hforwarded := h.forwarding.coherent hp.toCoherent
  have hext := h.steps.extends hp.toCoherent
  have hexact := Forwarding.run_exact hp {}
  -- a forwarder has no signature that the class declares
  have hfree : ∀ m k, p.AddedTo p.forwarded c m → k ∈ (p.type c).methods →
      (q.method m).signature ≠ (q.method k).signature := by
    intro m k hm hk hsame
    have hmlt := (hforwarded.member c ((h.forwarding.extends hp.toCoherent).declared ▸ hc) m hm.1).1
    refine ((hexact.added_iff hp hc hclass (q.method m).signature).mp ⟨m, hm, ?_⟩).1 ⟨k, hk, ?_⟩
    · exact ((h.walking.extends hforwarded).signature hmlt).symm
    · rw [hsame]
      exact (hext.signature (hp.member c hc k hk).1).symm
  intro t ht m hm k hk hsame
  obtain rfl := List.mem_singleton.mp ht
  by_cases hmold : m ∈ (p.type t).methods <;> by_cases hkold : k ∈ (p.type t).methods
  · exact hp.eq_of_signature hext hc hmold hkold hsame
  · exact absurd hsame.symm (hfree k m (h.addedTo hp hc hclass hk hkold) hmold)
  · exact absurd hsame (hfree m k (h.addedTo hp hc hclass hm hmold) hkold)
  · have hm' := h.addedTo hp hc hclass hm hmold
    have hk' := h.addedTo hp hc hclass hk hkold
    have hdeclared := (h.forwarding.extends hp.toCoherent).declared ▸ hc
    refine hexact.eq_of_signature hp hclass hm' hk' ?_
    rw [(h.walking.extends hforwarded).signature (hforwarded.member t hdeclared m hm'.1).1,
      (h.walking.extends hforwarded).signature (hforwarded.member t hdeclared k hk'.1).1] at hsame
    exact hsame

/-! ## Section 3: When signatures stay apart -/

/-- The twins that will be made get signatures that are free: no method of the interface has one, and
    no two twins of the interface get the same one. -/
structure TwinsFree (p : Program) : Prop where
  undeclared : ∀ d, p.NeedsTwin d → ¬p.Declares (p.home d) (p.twinSignature d)
  apart : ∀ d d', p.NeedsTwin d → p.NeedsTwin d' → p.home d = p.home d' →
    p.twinSignature d = p.twinSignature d' → d = d'

section

variable (h : Phases p cache q cache') (hp : p.Fresh)

include h hp

/-- If signatures are apart after a run, those of the twins were free. -/
theorem Phases.twinsFree_of_apart (hapart : q.SignaturesApart) : p.TwinsFree := by
  have hq := h.lowered.coherent
  have hext := h.steps.extends hp.toCoherent
  have hdeclared : ∀ d, p.NeedsTwin d → p.home d ∈ p.declared := fun d hd =>
    (hp.home_declared (lt_of_isDefault hd.1)).1
  refine ⟨?_, ?_⟩
  · rintro d hneeds ⟨k, hk, hsame⟩
    obtain ⟨t, ht⟩ := (h.needsTwin_iff hp).mp hneeds
    have hklt := (hp.member _ (hdeclared d hneeds) k hk).1
    have hkt : k = t := by
      refine hapart _ (hext.declared ▸ hdeclared d hneeds) k (hext.mem_methods hk) t
        (mem_methods_twin hext hq ht) ?_
      rw [hext.signature hklt, hsame, signature_twin hext hq ht]
    -- but the twin is a new method
    have hnew := h.steps.twin_new hp.toCoherent hp.statics ht
    rw [hkt] at hklt
    exact absurd hklt (Nat.not_lt.mpr hnew)
  · intro d d' hneeds hneeds' hhome hsame
    obtain ⟨t, ht⟩ := (h.needsTwin_iff hp).mp hneeds
    obtain ⟨t', ht'⟩ := (h.needsTwin_iff hp).mp hneeds'
    have htt' : t = t' := by
      refine hapart _ (hext.declared ▸ hdeclared d hneeds) t (mem_methods_twin hext hq ht) t' ?_ ?_
      · rw [hhome]
        exact mem_methods_twin hext hq ht'
      · rw [signature_twin hext hq ht, signature_twin hext hq ht', hsame]
    subst htt'
    exact hq.eq_of_twinOf ht ht'

/-- If the signatures of twins were free, those of an interface are apart after a run. -/
theorem Phases.apart_interface (hfree : p.TwinsFree) (ht : t ∈ p.declared)
    (hinterface : (p.type t).isInterface = true) : q.ApartIn [t] := by
  have hq := h.lowered.coherent
  have hext := h.steps.extends hp.toCoherent
  -- no old method of the interface has the signature of a twin
  have hnew : ∀ d m k, q.twinOf? d = some m → p.home d = t → k ∈ (p.type t).methods →
      (q.method m).signature ≠ (q.method k).signature := by
    intro d m k hd hhome hk hsame
    refine hfree.undeclared d ((h.needsTwin_iff hp).mpr ⟨m, hd⟩) ⟨k, hhome ▸ hk, ?_⟩
    rw [← signature_twin hext hq hd, hsame, hext.signature (hp.member t ht k hk).1]
  intro u hu m hm k hk hsame
  obtain rfl := List.mem_singleton.mp hu
  by_cases hmold : m ∈ (p.type u).methods <;> by_cases hkold : k ∈ (p.type u).methods
  · exact hp.eq_of_signature hext ht hmold hkold hsame
  · obtain ⟨d, hd, hhome⟩ := h.twin_of_new hp ht hinterface hk hkold
    exact absurd hsame.symm (hnew d k m hd hhome hmold)
  · obtain ⟨d, hd, hhome⟩ := h.twin_of_new hp ht hinterface hm hmold
    exact absurd hsame (hnew d m k hd hhome hkold)
  · obtain ⟨d, hd, hhome⟩ := h.twin_of_new hp ht hinterface hm hmold
    obtain ⟨d', hd', hhome'⟩ := h.twin_of_new hp ht hinterface hk hkold
    rw [signature_twin hext hq hd, signature_twin hext hq hd'] at hsame
    have hdd' : d = d' := hfree.apart d d' ((h.needsTwin_iff hp).mpr ⟨m, hd⟩)
      ((h.needsTwin_iff hp).mpr ⟨k, hd'⟩) (hhome.trans hhome'.symm) hsame
    rw [hdd', hd', Option.some.injEq] at hd
    exact hd.symm

/-- After a run signatures are apart exactly if the signatures of the twins were free. -/
theorem Phases.apart_iff : q.SignaturesApart ↔ p.TwinsFree := by
  refine ⟨h.twinsFree_of_apart hp, fun hfree t ht => ?_⟩
  rw [(h.steps.extends hp.toCoherent).declared] at ht
  cases hkind : (p.type t).isInterface with
  | false => exact h.apart_class hp ht hkind t List.mem_cons_self
  | true => exact h.apart_interface hp hfree ht hkind t List.mem_cons_self

end

/-! ## Section 4: Names that keep signatures apart -/

/-- No method of an interface has a bracket in its name, or a name that ends as those of twins do. -/
def NoTwinNames (p : Program) : Prop :=
  ∀ t ∈ p.declared, (p.type t).isInterface = true → ∀ m ∈ (p.type t).methods,
    '(' ∉ (p.method m).name.toList ∧ ¬twinEnding.toList <:+ (p.method m).name.toList

theorem toList_twinSignature (p : Program) (d : MethodRef) : (p.twinSignature d).toList =
    ((p.method d).name ++ twinEnding).toList ++ '(' :: ((String.intercalate ","
      (p.enclosingName d :: (p.method d).params.map Param.type)).toList ++ [')']) := by
  simp [twinSignature, String.toList_append]

/-- The signature of a method is told from that of its twin, if the name is. -/
theorem signature_of_twinSignature {d' : MethodRef} (hd : '(' ∉ (p.method d).name.toList)
    (hd' : '(' ∉ (p.method d').name.toList) (hhome : p.enclosingName d = p.enclosingName d')
    (h : p.twinSignature d = p.twinSignature d') :
    (p.method d).signature = (p.method d').signature := by
  have htexts := congrArg String.toList h
  rw [toList_twinSignature, toList_twinSignature] at htexts
  obtain ⟨hname, hrest⟩ := eq_of_append_cons_eq (no_bracket_twin hd) (no_bracket_twin hd') htexts
  have hname' := (String.append_left_inj _).mp (String.toList_inj.mp hname)
  have hparams := String.toList_inj.mp (List.append_cancel_right hrest)
  rw [hhome] at hparams
  simp only [Method.signature, hname', intercalate_cons_inj hparams]

/-- Where no method is named like a twin, the signatures of twins are free. -/
theorem NoTwinNames.twinsFree (hnames : p.NoTwinNames) (hp : p.Fresh) : p.TwinsFree := by
  have hplain : ∀ d, p.isDefault d = true → '(' ∉ (p.method d).name.toList := by
    intro d hd
    obtain ⟨hhome, -, hmem⟩ := hp.home_declared (lt_of_isDefault hd)
    exact (hnames _ hhome (isInterface_home hd) d hmem).1
  refine ⟨?_, ?_⟩
  · rintro d ⟨hd, -⟩ ⟨k, hk, hsame⟩
    have hhome := (hp.home_declared (lt_of_isDefault hd)).1
    obtain ⟨hbracket, hending⟩ := hnames _ hhome (isInterface_home hd) k hk
    have htexts := congrArg String.toList hsame
    rw [toList_signature, toList_twinSignature] at htexts
    -- both names end at the first bracket, so that `k` would have the name of the twin
    obtain ⟨hname, -⟩ := eq_of_append_cons_eq hbracket (no_bracket_twin (hplain d hd)) htexts
    rw [hname, String.toList_append] at hending
    exact hending (List.suffix_append _ _)
  · rintro d d' ⟨hd, -⟩ ⟨hd', -⟩ hhome hsame
    obtain ⟨ht, -, hmem⟩ := hp.home_declared (lt_of_isDefault hd)
    obtain ⟨-, -, hmem'⟩ := hp.home_declared (lt_of_isDefault hd')
    have hname : p.enclosingName d = p.enclosingName d' :=
      (hp.toWired.enclosingName_eq_iff (lt_of_isDefault hd) (lt_of_isDefault hd')).mpr hhome
    exact hp.distinct _ ht d hmem d' (hhome ▸ hmem')
      (signature_of_twinSignature (hplain d hd) (hplain d' hd') hname hsame)

/-- A program whose types, methods and parameters have plain texts. -/
structure PlainTexts (p : Program) : Prop extends PlainNames p where
  named : ∀ t ∈ p.declared, (p.type t).name ≠ ""
  params : ∀ m ∈ p.declaredMethods, ∀ x ∈ (p.method m).params, TypeName.IsPlain x.type.toList

theorem PlainTexts.enclosingName (h : p.PlainTexts) (hp : p.Wired)
    (hm : m.index < p.methods.length) : TypeName.IsPlain (p.enclosingName m).toList := by
  have hhome := (hp.home_declared hm).1
  rw [hp.enclosingName_eq hm]
  refine .name ?_ (h.types _ hhome)
  rw [Ne, String.toList_eq_nil_iff]
  exact h.named _ hhome

/-- The parameters of all methods after a run have plain types: those of a twin are the interface and
    the types of its default method, and those of a forwarder are the types of a default method. -/
theorem Phases.isPlain_params (h : Phases p cache q cache') (hp : p.Fresh) (htexts : p.PlainTexts)
    (hm : m.index < q.methods.length) :
    ∀ x ∈ (q.method m).params, TypeName.IsPlain x.type.toList := by
  have hext := h.steps.extends hp.toCoherent
  have hold : ∀ k, k.index < p.methods.length →
      ∀ x ∈ (p.method k).params, TypeName.IsPlain x.type.toList := fun k hk =>
    htexts.params k (hp.mem_declaredMethods hk)
  by_cases hlt : m.index < p.methods.length
  · have hparams : (q.method m).params = (p.method m).params := by rw [hext.method m hlt]
    rw [hparams]
    exact hold m hlt
  rcases h.created hp (Nat.le_of_not_lt hlt) hm with ⟨d, hd⟩ | ⟨d, c, -, hforwarder⟩
  · obtain ⟨hdefault, htwin⟩ := isTwin_of_twinOf hext h.lowered.coherent hd
    have hdlt := lt_of_isDefault hdefault
    have hparams : (q.method d).params = (p.method d).params := by rw [hext.method d hdlt]
    rw [htwin.params, hparams, hext.enclosingName hdlt, List.forall_mem_cons]
    exact ⟨htexts.enclosingName hp.toWired hdlt, hold d hdlt⟩
  · obtain ⟨twin, htwin, -⟩ := hforwarder.body
    have hdlt := lt_of_isDefault (isTwin_of_twinOf hext h.lowered.coherent htwin).1
    -- a forwarder has parameters of its own, which agree with the old ones in their types
    intro x hx
    have hmem := List.mem_map_of_mem (f := fun x : Param => (x.name, x.type, x.final)) hx
    rw [hforwarder.params] at hmem
    obtain ⟨y, hy, heq⟩ := List.mem_map.mp hmem
    simp only [Prod.mk.injEq] at heq
    rw [← heq.2.1]
    exact hold d hdlt y hy

theorem Phases.isLegible (h : Phases p cache q cache') (hp : p.Fresh) (htexts : p.PlainTexts)
    (hm : m.index < q.methods.length) : q.IsLegible m := by
  have hq := h.lowered.coherent
  have hspelled := h.steps.spelled hp.toCoherent (htexts.spelled hp.toWired hp.distinct)
  exact ⟨htexts.no_colon (h.steps.extends hp.toCoherent) hq.toWired hm, hspelled.no_bracket hq hm,
    h.isPlain_params hp htexts hm⟩

/-- With plain texts, an identifier stands for one method after a run. -/
theorem Phases.eq_of_memberIdent (h : Phases p cache q cache') (hp : p.Fresh)
    (htexts : p.PlainTexts) {k : MethodRef} (hm : m ∈ q.declaredMethods)
    (hk : k ∈ q.declaredMethods) (hsame : q.memberIdent m = q.memberIdent k) : m = k := by
  have hq := h.lowered.coherent.toWired
  have hspelled := h.steps.spelled hp.toCoherent (htexts.spelled hp.toWired hp.distinct)
  have hmlt := hq.lt_of_mem_declaredMethods hm
  have hklt := hq.lt_of_mem_declaredMethods hk
  exact Program.eq_of_memberIdent (hq.keysApart hspelled.apart) hmlt hklt
    (h.isLegible hp htexts hmlt) (h.isLegible hp htexts hklt) hsame

/-! ## Section 5: The specification -/

/-- What can be said of the signatures of `q`, which has come of the loaded program `p`. -/
structure ToldApart (p q : Program) : Prop where
  /-- All signatures are apart exactly if no twin gets the signature of a method that its interface
      declares, or of another twin of the interface. -/
  apart_iff : q.SignaturesApart ↔ p.TwinsFree
  /-- Then, and only then, a key stands for one method. -/
  keysApart_iff : q.KeysApart ↔ p.TwinsFree
  /-- Only a twin takes the signature of another method of its type.  So no two methods of a class
      have the same signature, and no two methods that the loaded program declares. -/
  clash : ∀ t ∈ q.declared, ∀ m ∈ (q.type t).methods, ∀ k ∈ (q.type t).methods, m ≠ k →
    (q.method m).signature = (q.method k).signature →
      ∃ d, p.home d = t ∧ (q.twinOf? d = some m ∨ q.twinOf? d = some k)
  /-- Signatures are apart if no method of an interface is named like a twin. -/
  named : p.NoTwinNames → q.SignaturesApart
  /-- If other texts are plain too, an identifier stands for one method. -/
  identified : p.PlainTexts → ∀ m ∈ q.declaredMethods, ∀ k ∈ q.declaredMethods,
    q.memberIdent m = q.memberIdent k → m = k

/-- Keys that are apart tell the methods of each type apart. -/
theorem Wired.keysApart_iff (hp : p.Wired) : p.KeysApart ↔ p.SignaturesApart := by
  refine ⟨fun hkeys t ht m hm k hk hsame => ?_, hp.keysApart⟩
  obtain ⟨hmlt, hmt⟩ := hp.member t ht m hm
  obtain ⟨hklt, hkt⟩ := hp.member t ht k hk
  refine hkeys m k hmlt hklt ?_
  simp only [key, enclosingName, hmt, hkt, hsame]

/-- After a successful run on a loaded program signatures are pairwise distinct within every type
    exactly if the signatures of the twins were free in the loaded program.  Names decide that: it is so
    if no method is named like a twin. -/
theorem lower_toldApart (hp : p.Loaded) {summary : Summary}
    (hrun : p.lower cache = ⟨q, cache', .ok summary⟩) : ToldApart p q := by
  have hfresh := hp.fresh
  have hphases := lower_phases hfresh.toCoherent hrun
  have hwired := hphases.lowered.coherent.toWired
  have hext := hphases.steps.extends hfresh.toCoherent
  have hiff := hphases.apart_iff hfresh
  refine ⟨hiff, hwired.keysApart_iff.trans hiff, ?_, ?_, ?_⟩
  · intro t ht m hm k hk hne hsame
    rw [hext.declared] at ht
    have hinterface : (p.type t).isInterface = true := by
      cases hkind : (p.type t).isInterface with
      | true => rfl
      | false =>
        exact absurd (hphases.apart_class hfresh ht hkind t List.mem_cons_self m hm k hk hsame) hne
    -- not both methods are old
    by_cases hold : m ∈ (p.type t).methods
    · obtain ⟨d, hd, hhome⟩ := hphases.twin_of_new hfresh ht hinterface hk fun hkold =>
        hne (hfresh.eq_of_signature hext ht hold hkold hsame)
      exact ⟨d, hhome, .inr hd⟩
    · obtain ⟨d, hd, hhome⟩ := hphases.twin_of_new hfresh ht hinterface hm hold
      exact ⟨d, hhome, .inl hd⟩
  · exact fun hnames => hiff.mpr (hnames.twinsFree hfresh)
  · exact fun htexts m hm k hk => hphases.eq_of_memberIdent hfresh htexts hm hk

theorem lower_toldApart_greeting : ∃ q cache summary, greetingProgram.Loaded ∧
    greetingProgram.lower {} = ⟨q, cache, .ok summary⟩ ∧ ToldApart greetingProgram q ∧
      q.SignaturesApart := by
  have hnames : greetingProgram.NoTwinNames := by
    unfold NoTwinNames
    decide +kernel
  obtain ⟨q, cache, summary, hrun, -, -⟩ := greeting_lowers
  have htold := lower_toldApart greeting_loaded hrun
  exact ⟨q, cache, summary, greeting_loaded, hrun, htold, htold.named hnames⟩

/-! ## Section 6: A clash -/

/-- The program of a description that can be built. -/
def ofDescription (x : Description) : Program := (x.build "").toOption.getD {}

theorem build_ofDescription {x : Description} (h : (x.build "").isOk = true) :
    x.build "" = .ok (ofDescription x) := by
  obtain ⟨p, hp⟩ := Description.exists_of_isOk h
  rw [ofDescription, hp]
  rfl

theorem loaded_ofDescription {x : Description} (h : (x.build "").isOk = true) :
    (ofDescription x).Loaded := ⟨"", x, build_ofDescription h⟩

/-- A run that succeeds, taken apart. -/
theorem lower_of_isOk {p : Program} {cache : NameCache} (h : (p.lower cache).outcome.isOk = true) :
    ∃ summary, p.lower cache = ⟨(p.lower cache).program, (p.lower cache).cache, .ok summary⟩ := by
  obtain ⟨summary, hsummary⟩ := Description.exists_of_isOk h
  exact ⟨summary, by rw [← hsummary]⟩

/-- An interface with a default method and a static method that is named like its twin, and a fragment
    that uses both. -/
def clashing : Description where
  version := "1.0"
  types := [
    { name := "T"
      kind := "interface"
      methods := [
        { name := "m"
          returns := "String"
          body := .stmts 4 [.ret 5 (.record 5 (some "\"a\"") "" "" .absent [])] },
        { name := "m$static"
          static := true
          params := [{ name := "t", type := "T" }]
          returns := "String"
          body := .stmts 6 [.ret 7 (.record 7 (some "\"b\"") "" "" .absent [])] }] },
    { name := "U"
      methods := [
        { name := "use"
          params := [{ name := "t", type := "T" }]
          returns := "Object"
          native := some "return @T::m$static(LT;)(t) + t.@T::m()();" }] }]

/-- The twin gets the key and the identifier of the other method. -/
theorem lower_clash : ∃ q cache summary, (ofDescription clashing).Loaded ∧
    (ofDescription clashing).lower {} = ⟨q, cache, .ok summary⟩ ∧ ¬q.SignaturesApart ∧
      ∃ m ∈ q.declaredMethods, ∃ k ∈ q.declaredMethods, m ≠ k ∧ q.key m = q.key k ∧
        q.memberIdent m = q.memberIdent k := by
  have hloaded : (ofDescription clashing).Loaded := loaded_ofDescription (by decide +kernel)
  have hok : ((ofDescription clashing).lower {}).outcome.isOk = true := by decide +kernel
  obtain ⟨summary, hrun⟩ := lower_of_isOk hok
  have hmethods : (((ofDescription clashing).lower {}).program.type ⟨0⟩).methods =
      [⟨0⟩, ⟨1⟩, ⟨3⟩] := by decide +kernel
  have hsame : (((ofDescription clashing).lower {}).program.method ⟨1⟩).signature =
      (((ofDescription clashing).lower {}).program.method ⟨3⟩).signature := by decide +kernel
  refine ⟨_, _, summary, hloaded, hrun, ?_, ⟨1⟩, by decide +kernel, ⟨3⟩, by decide +kernel,
    by decide, by decide +kernel, by decide +kernel⟩
  intro hapart
  have heq := hapart ⟨0⟩ (by decide +kernel) ⟨1⟩ (by rw [hmethods]; decide) ⟨3⟩
    (by rw [hmethods]; decide) hsame
  cases heq

end DefaultLowering.Program
