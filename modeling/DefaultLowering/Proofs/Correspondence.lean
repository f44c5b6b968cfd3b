import DefaultLowering.Proofs.Clashes
import DefaultLowering.Proofs.Shapes
import Mathlib.Data.List.Find

/-!
# Programs with the same shapes

Two loaded programs whose types have the same shapes differ in the order of their types, and so in the
places of their types and methods.  Types with the same name correspond to each other, and so do methods
with the same key.  What is asked about a type or a method has the same answer for its counterpart, unless
the answer depends on the order: which of several methods an identifier denotes.

- `Rearranged`: the programs have the same shapes;
- `SameType`, `SameMethod`: counterparts;
- `Rearranged.inherits`, `Rearranged.inherited`: links lead to counterparts;
- `SameDenoted`: the identifiers in fragments denote counterparts, which is so if methods of two types
  share none of them (`IdentsApart`);
- `Rearranged.needsTwin`: then the same default methods need a twin.
-/

namespace DefaultLowering.Program

variable {m d : MethodRef} {t : TypeRef} {ident : String}

variable {p p' : Program}

/-! ## Section 1: Counterparts -/

/-- Loaded programs with types of the same shapes, in any order. -/
structure Rearranged (p p' : Program) : Prop where
  loaded : p.Loaded
  loaded' : p'.Loaded
  shapes : (p.declared.map p.typeShape).Perm (p'.declared.map p'.typeShape)

/-- A type of the first program and a type of the second that have the same shape. -/
structure SameType (p p' : Program) (t t' : TypeRef) : Prop where
  declared : t ∈ p.declared
  declared' : t' ∈ p'.declared
  shape : p.typeShape t = p'.typeShape t'

/-- A method of the first program and a method of the second that have the same shape and stand in types
    of the same shape. -/
structure SameMethod (p p' : Program) (m m' : MethodRef) : Prop where
  lt : m.index < p.methods.length
  lt' : m'.index < p'.methods.length
  home : SameType p p' (p.home m) (p'.home m')
  shape : p.methodShape m = p'.methodShape m'

namespace Rearranged

variable (h : Rearranged p p')

include h

theorem symm : Rearranged p' p := ⟨h.loaded', h.loaded, h.shapes.symm⟩

theorem wired : p.Wired := h.loaded.fresh.toWired

theorem wired' : p'.Wired := h.loaded'.fresh.toWired

end Rearranged

namespace SameType

variable {t t' : TypeRef} (h : SameType p p' t t')

include h

theorem symm : SameType p' p t' t := ⟨h.declared', h.declared, h.shape.symm⟩

theorem name : (p.type t).name = (p'.type t').name := congrArg TypeShape.name h.shape

theorem isInterface : (p.type t).isInterface = (p'.type t').isInterface :=
  congrArg TypeShape.interface h.shape

theorem supers : Description.typeNames p (p.directSupertypes t) =
    Description.typeNames p' (p'.directSupertypes t') :=
  congrArg TypeShape.supers h.shape

theorem methods : (p.type t).methods.map p.methodShape = (p'.type t').methods.map p'.methodShape :=
  congrArg TypeShape.methods h.shape

end SameType

/-- A loaded program has one method for a key. -/
theorem Loaded.keysApart (hp : p.Loaded) : p.KeysApart := hp.fresh.toWired.keysApart hp.fresh.distinct

theorem signature_methodShape (p : Program) (m : MethodRef) :
    (p.methodShape m).signature = (p.method m).signature := rfl

theorem Wired.ident_methodShape (hp : p.Wired) (hm : m.index < p.methods.length) :
    (p.methodShape m).ident (p.type (p.home m)).name = p.memberIdent m := by
  rw [← hp.enclosingName_eq hm, memberIdent, memberText, MethodShape.ident, methodShape]
  simp only [List.map_map, Function.comp_def]

namespace SameMethod

variable {m m' : MethodRef} (h : SameMethod p p' m m')

include h

theorem signature : (p.method m).signature = (p'.method m').signature := by
  rw [← signature_methodShape, ← signature_methodShape, h.shape]

theorem mention : p.mention m = p'.mention m' := congrArg MethodShape.mention h.shape

section

variable (hr : Rearranged p p')

include hr

theorem enclosingName : p.enclosingName m = p'.enclosingName m' := by
  rw [hr.wired.enclosingName_eq h.lt, hr.wired'.enclosingName_eq h.lt', h.home.name]

theorem key : p.key m = p'.key m' := by
  rw [Program.key, Program.key, h.enclosingName hr, h.signature]

theorem memberIdent : p.memberIdent m = p'.memberIdent m' := by
  rw [← hr.wired.ident_methodShape h.lt, ← hr.wired'.ident_methodShape h.lt', h.shape, h.home.name]

theorem twinSignature : p.twinSignature m = p'.twinSignature m' := by
  have hname : (p.method m).name = (p'.method m').name := congrArg MethodShape.name h.shape
  have hparams : (p.method m).params.map Param.type = (p'.method m').params.map Param.type :=
    congrArg MethodShape.params h.shape
  rw [Program.twinSignature, Program.twinSignature, hname, hparams, h.enclosingName hr]

theorem isDefault : p.isDefault m = p'.isDefault m' := by
  have hname : (p.method m).name = (p'.method m').name := congrArg MethodShape.name h.shape
  have hstatic : (p.method m).static = (p'.method m').static := congrArg MethodShape.static h.shape
  have husable : usable (p.method m).body = usable (p'.method m').body :=
    congrArg MethodShape.usable h.shape
  rw [Bool.eq_iff_iff, isDefault_iff, isDefault_iff]
  simp only [(hr.wired.home_declared h.lt).2.1, (hr.wired'.home_declared h.lt').2.1, Option.some.injEq,
    exists_eq_left', Method.isInitializer, hname, hstatic, husable, h.home.isInterface]

end

end SameMethod

namespace Rearranged

variable (h : Rearranged p p')

include h

theorem sameType (ht : t ∈ p.declared) : ∃ t', SameType p p' t t' := by
  obtain ⟨t', ht', hshape⟩ := List.mem_map.mp (h.shapes.mem_iff.mp (List.mem_map_of_mem ht))
  exact ⟨t', ht, ht', hshape.symm⟩

/-- Types with the same name are counterparts. -/
theorem sameType_of_name {t' : TypeRef} (ht : t ∈ p.declared) (ht' : t' ∈ p'.declared)
    (hname : (p.type t).name = (p'.type t').name) : SameType p p' t t' := by
  obtain ⟨u', hu'⟩ := h.sameType ht
  have htu : t' = u' := h.wired'.name_inj t' ht' u' hu'.declared' (hname.symm.trans hu'.name)
  exact htu ▸ hu'

theorem sameMethod (hm : m.index < p.methods.length) :
    ∃ m', SameMethod p p' m m' := by
  obtain ⟨hhome, -, hmem⟩ := h.wired.home_declared hm
  obtain ⟨t', ht'⟩ := h.sameType hhome
  have hshape := List.mem_map_of_mem (f := p.methodShape) hmem
  rw [ht'.methods] at hshape
  obtain ⟨m', hm', hshape⟩ := List.mem_map.mp hshape
  refine ⟨m', hm, (h.wired'.member t' ht'.declared' m' hm').1, ?_, hshape.symm⟩
  rw [h.wired'.home_of_mem ht'.declared' hm']
  exact ht'

/-- Methods with the same key are counterparts. -/
theorem sameMethod_of_key {m' : MethodRef} (hm : m.index < p.methods.length)
    (hm' : m'.index < p'.methods.length) (hkey : p.key m = p'.key m') : SameMethod p p' m m' := by
  obtain ⟨k', hk'⟩ := h.sameMethod hm
  have hmk : m' = k' := h.loaded'.keysApart m' k' hm' hk'.lt' (hkey.symm.trans (hk'.key h))
  exact hmk ▸ hk'

end Rearranged

/-! ## Section 2: Links and what is inherited -/

theorem Loaded.wellFormed (hp : p.Loaded) : p.WellFormed := by
  obtain ⟨file, x, hok⟩ := hp
  exact Description.build_wellFormed hok

/-- Links lead to types of the program. -/
theorem Hierarchy.declared_of_link (hp : p.Hierarchy) {u : TypeRef} (ht : t ∈ p.declared)
    (hu : u ∈ p.directSupertypes t) : u ∈ p.declared := by
  rcases List.mem_append.mp hu with hu | hu
  · exact (hp.super t ht u (Option.mem_toList.mp hu)).2.1
  · exact (hp.interfaces t ht u hu).1

namespace Rearranged

variable (h : Rearranged p p') {t t' u u' c c' : TypeRef} {d d' : MethodRef}

include h

/-- One link more leads to counterparts. -/
theorem link (htt' : SameType p p' t t') (hu : u ∈ p.directSupertypes t) :
    ∃ u', SameType p p' u u' ∧ u' ∈ p'.directSupertypes t' := by
  have hname : (p.type u).name ∈ Description.typeNames p (p.directSupertypes t) :=
    List.mem_map_of_mem hu
  rw [htt'.supers] at hname
  obtain ⟨u', hu', hname⟩ := List.mem_map.mp hname
  -- shapes give links by name, and names tell the types of a program apart
  have hdeclared := h.loaded.wellFormed.toHierarchy.declared_of_link htt'.declared hu
  have hdeclared' := h.loaded'.wellFormed.toHierarchy.declared_of_link htt'.declared' hu'
  exact ⟨u', h.sameType_of_name hdeclared hdeclared' hname.symm, hu'⟩

/-- All links lead to counterparts. -/
theorem inherits (htt' : SameType p p' t t') (huu' : SameType p p' u u') (hsub : p.Inherits t u) :
    p'.Inherits t' u' := by
  -- along the links some counterpart is reached, and there is only one
  have hreached : ∃ v', SameType p p' u v' ∧ p'.Inherits t' v' := by
    clear huu'
    induction hsub with
    | refl => exact ⟨t', htt', .refl⟩
    | tail _ hlink ih =>
      obtain ⟨b', hbb', hb'⟩ := ih
      obtain ⟨v', hv', hlink'⟩ := h.link hbb' hlink
      exact ⟨v', hv', hb'.tail hlink'⟩
  obtain ⟨v', hv', hsub'⟩ := hreached
  have huv : u' = v' := h.wired'.name_inj u' huu'.declared' v' hv'.declared'
    (huu'.name.symm.trans hv'.name)
  rw [huv]
  exact hsub'

theorem implemented (htt' : SameType p p' t t') (hne : p.implementors t ≠ []) :
    p'.implementors t' ≠ [] := by
  obtain ⟨c, hc⟩ := List.exists_mem_of_ne_nil _ hne
  obtain ⟨hdeclared, hclass, hsub⟩ := mem_implementors_iff.mp hc
  obtain ⟨c', hcc'⟩ := h.sameType hdeclared
  have hsub' := h.inherits hcc' htt' (isSubtype_iff.mp hsub)
  exact List.ne_nil_of_mem (mem_implementors_iff.mpr
    ⟨hcc'.declared', hcc'.isInterface ▸ hclass, isSubtype_iff.mpr hsub'⟩)

theorem inherited (hcc' : SameType p p' c c') (hdd' : SameMethod p p' d d')
    (hd : d ∈ p.inherited c) : d' ∈ p'.inherited c' := by
  obtain ⟨hdefault, hsub⟩ := (mem_inherited h.wired).mp hd
  refine (mem_inherited h.wired').mpr ⟨hdd'.isDefault h ▸ hdefault, ?_⟩
  exact isSubtype_iff.mpr (h.inherits hcc' hdd'.home (isSubtype_iff.mp hsub))

end Rearranged

theorem SameType.declares {t' : TypeRef} (h : SameType p p' t t') {signature : String}
    (hsignature : p.Declares t signature) : p'.Declares t' signature := by
  obtain ⟨m, hm, rfl⟩ := hsignature
  have hshape := List.mem_map_of_mem (f := p.methodShape) hm
  rw [h.methods] at hshape
  obtain ⟨m', hm', hshape⟩ := List.mem_map.mp hshape
  refine ⟨m', hm', ?_⟩
  rw [← signature_methodShape, ← signature_methodShape, hshape]

/-! ## Section 3: What is used -/

/-- No fragment refers to an identifier that methods of two types share. -/
def IdentsApart (p : Program) : Prop :=
  ∀ m ∈ p.declaredMethods, ∀ idents, p.mention m = .names idents → ∀ ident ∈ idents,
    ∀ k ∈ p.declaredMethods, ∀ l ∈ p.declaredMethods,
      p.memberIdent k = ident → p.memberIdent l = ident → p.home k = p.home l

/-- The identifiers in fragments denote methods with the same keys in both programs. -/
def SameDenoted (p p' : Program) : Prop :=
  ∀ m ∈ p.declaredMethods, ∀ idents, p.mention m = .names idents → ∀ ident ∈ idents,
    (p.denoted ident).map p.key = (p'.denoted ident).map p'.key

/-- Methods of two types share no identifier if the names of types have no colons. -/
theorem identsApart_of_no_colon (hp : p.Wired)
    (h : ∀ t ∈ p.declared, ':' ∉ (p.type t).name.toList) : p.IdentsApart := by
  intro _ _ _ _ ident _ k hk l hl hkident hlident
  have hklt := hp.lt_of_mem_declaredMethods hk
  have hllt := hp.lt_of_mem_declaredMethods hl
  have hclean : ∀ j, j.index < p.methods.length → ':' ∉ (p.enclosingName j).toList := by
    intro j hj
    rw [hp.enclosingName_eq hj]
    exact h _ (hp.home_declared hj).1
  have htexts := congrArg String.toList (hkident.trans hlident.symm)
  rw [toList_memberIdent, toList_memberIdent, List.cons.injEq] at htexts
  obtain ⟨hname, -⟩ := eq_of_append_cons_eq (hclean k hklt) (hclean l hllt) htexts.2
  exact (hp.enclosingName_eq_iff hklt hllt).mp (String.toList_inj.mp hname)

theorem mem_targetsIn : d ∈ p.targetsIn m ↔ p.UsedIn m d := by
  rw [targetsIn, UsedIn]
  cases (p.method m).body <;> simp

theorem lt_of_usedIn (h : p.UsedIn m d) : m.index < p.methods.length := by
  obtain ⟨b, hb, -⟩ := h
  exact lt_of_body hb

/-- Typed code calls methods of the program. -/
theorem Loaded.lt_of_target (hp : p.Loaded) {k : MethodRef} (hnative : (p.method m).native = false)
    (hk : k ∈ p.targetsIn m) :
    k.index < p.methods.length := by
  obtain ⟨hhome, -, hmem⟩ := hp.fresh.home_declared (lt_of_usedIn (mem_targetsIn.mp hk))
  obtain ⟨file, x, hok⟩ := hp
  obtain ⟨e, -, he, hbodies⟩ := exists_of_forall₂_left (Description.build_bodyOf hok) hhome
  obtain ⟨d, -, hd, hbody⟩ := exists_of_forall₂_left
    (List.Forall₂.mp (fun _ _ => And.intro) he.methods hbodies) hmem
  have hnone : d.native = none := by
    rw [← Option.not_isSome_iff_eq_none, ← hd.native, hnative]
    exact Bool.false_ne_true
  obtain ⟨call, -, hnames⟩ := exists_of_forall₂_right (hbody.typed hnone) hk
  exact hnames.lt

/-- A native method has a fragment, whose table lists the methods that its identifiers denote. -/
theorem Loaded.usedIn_native (hp : p.Loaded) (hnative : (p.method m).native = true) :
    p.UsedIn m d ↔ ∃ ident ∈ identsIn (p.method m).body, p.denoted ident = some d := by
  have hfits := hp.fresh.fits m
  rw [hfits.native, Option.any_eq_true] at hnative
  obtain ⟨b, hbody, hb⟩ := hnative
  cases b with
  | code => cases hb
  | native pos func refs =>
    obtain ⟨f, rfl, -⟩ := hfits.fragment pos func refs hbody
    have htable := hp.wellFormed.linkage m pos f refs hbody
    rw [hbody, identsIn]
    constructor
    · rintro ⟨b, hb, hd⟩
      rw [hbody] at hb
      cases hb
      obtain ⟨r, hr, htarget⟩ := mem_linkTargets.mp hd
      rw [htable.entries] at hr
      obtain ⟨ident, hident, rfl⟩ := List.mem_map.mp hr
      exact ⟨ident, List.mem_eraseDups.mp hident, htarget⟩
    · rintro ⟨ident, hident, hdenoted⟩
      refine ⟨_, hbody, mem_linkTargets.mpr
        ⟨⟨(p.method m).pos, ident, p.denoted ident⟩, ?_, hdenoted⟩⟩
      rw [htable.entries]
      exact List.mem_map.mpr ⟨ident, List.mem_eraseDups.mpr hident, rfl⟩

/-- What a method uses, told from what its body mentions. -/
theorem Loaded.usedIn_iff (hp : p.Loaded) : p.UsedIn m d ↔
    (∃ keys, p.mention m = .calls keys ∧ d.index < p.methods.length ∧ p.key d ∈ keys) ∨
      ∃ idents, p.mention m = .names idents ∧ ∃ ident ∈ idents, p.denoted ident = some d := by
  cases hnative : (p.method m).native with
  | false =>
    have hmention : p.mention m = .calls ((p.targetsIn m).map p.key) := by
      rw [mention, hnative]
      rfl
    simp only [hmention, Mention.calls.injEq, exists_eq_left', reduceCtorEq, false_and, exists_false,
      or_false, ← mem_targetsIn, List.mem_map]
    constructor
    · exact fun hd => ⟨hp.lt_of_target hnative hd, d, hd, rfl⟩
    · rintro ⟨hlt, k, hk, hkey⟩
      have hkd : k = d := hp.keysApart k d (hp.lt_of_target hnative hk) hlt hkey
      exact hkd ▸ hk
  | true =>
    have hmention : p.mention m = .names (identsIn (p.method m).body) := by
      rw [mention, hnative]
      rfl
    simp only [hmention, Mention.names.injEq, exists_eq_left', reduceCtorEq, false_and, exists_false,
      false_or]
    exact hp.usedIn_native hnative

/-- What an identifier denotes is the first method of its type that has the identifier. -/
theorem Wired.find_of_denoted (hp : p.Wired) (h : p.denoted ident = some d) :
    (p.type (p.home d)).methods.find? (fun m => p.memberIdent m == ident) = some d := by
  rw [denoted, declaredMethods, List.find?_flatMap] at h
  obtain ⟨t, ht, hfind⟩ := List.exists_of_findSome?_eq_some h
  rw [hp.home_of_mem ht (List.mem_of_find?_eq_some hfind)]
  exact hfind

/-- The shape of what an identifier denotes can be told from the shape of the type. -/
theorem Wired.shape_of_denoted (hp : p.Wired) (h : p.denoted ident = some d) :
    (p.typeShape (p.home d)).methods.find?
      (fun s => s.ident (p.typeShape (p.home d)).name == ident) =
        some (p.methodShape d) := by
  have hlt := hp.lt_of_mem_declaredMethods (List.mem_of_find?_eq_some h)
  have hhome := (hp.home_declared hlt).1
  have hsame : ∀ m ∈ (p.type (p.home d)).methods,
      ((p.methodShape m).ident (p.type (p.home d)).name == ident) =
        (p.memberIdent m == ident) := by
    intro m hm
    rw [← hp.ident_methodShape (hp.member _ hhome m hm).1, hp.home_of_mem hhome hm]
  rw [typeShape, List.find?_map, Function.comp_def, List.find?_congr hsame, hp.find_of_denoted h]
  rfl

namespace Rearranged

variable (h : Rearranged p p') {d d' : MethodRef}

include h

/-- An identifier denotes counterparts, if all methods with the identifier stand in one type. -/
theorem denoted (hdd' : SameMethod p p' d d')
    (hapart : ∀ k ∈ p.declaredMethods, p.memberIdent k = ident → p.home k = p.home d)
    (hd : p.denoted ident = some d) : p'.denoted ident = some d' := by
  obtain ⟨k', hk'⟩ : ∃ k', p'.denoted ident = some k' := by
    rw [← Option.isSome_iff_exists, Program.denoted, List.find?_isSome]
    refine ⟨d', h.wired'.mem_declaredMethods hdd'.lt', beq_iff_eq.mpr ?_⟩
    rw [← hdd'.memberIdent h]
    exact memberIdent_of_denoted hd
  have hlt' := h.wired'.lt_of_mem_declaredMethods (List.mem_of_find?_eq_some hk')
  obtain ⟨k, hkk'⟩ := h.symm.sameMethod hlt'
  have hhome : p.home k = p.home d := by
    refine hapart k (h.wired.mem_declaredMethods hkk'.lt') ?_
    rw [← hkk'.memberIdent h.symm]
    exact memberIdent_of_denoted hk'
  -- both programs find the method in the same type
  have hhome' : SameType p p' (p.home d) (p'.home k') := hhome ▸ hkk'.home.symm
  have hshape := h.wired'.shape_of_denoted hk'
  rw [← hhome'.shape, h.wired.shape_of_denoted hd, Option.some.injEq] at hshape
  have hsame : SameMethod p p' d k' := ⟨hdd'.lt, hlt', hhome', hshape⟩
  rw [hk', Option.some.injEq]
  exact h.loaded'.keysApart k' d' hlt' hdd'.lt'
    ((hsame.key h).symm.trans (hdd'.key h))

theorem denoted_none (hnone : p.denoted ident = none) : p'.denoted ident = none := by
  cases hk' : p'.denoted ident with
  | none => rfl
  | some =>
    obtain ⟨k, hkk'⟩ := h.symm.sameMethod
      (h.wired'.lt_of_mem_declaredMethods (List.mem_of_find?_eq_some hk'))
    have hident := (hkk'.memberIdent h.symm).symm.trans (memberIdent_of_denoted hk')
    have hnot := List.find?_eq_none.mp hnone k (h.wired.mem_declaredMethods hkk'.lt')
    exact absurd (beq_iff_eq.mpr hident) hnot

theorem sameDenoted (hapart : p.IdentsApart) : p.SameDenoted p' := by
  intro m hm idents hidents ident hident
  cases hd : p.denoted ident with
  | none =>
    rw [h.denoted_none hd]
    rfl
  | some d =>
    have hmem := List.mem_of_find?_eq_some hd
    obtain ⟨d', hdd'⟩ := h.sameMethod (h.wired.lt_of_mem_declaredMethods hmem)
    rw [h.denoted hdd' (fun k hk hkident => hapart m hm idents hidents ident hident k hk d hmem hkident
      (memberIdent_of_denoted hd)) hd, Option.map_some, Option.map_some,
      hdd'.key h]

theorem sameDenoted_symm (hsame : p.SameDenoted p') : p'.SameDenoted p := by
  intro m' hm' idents hidents ident hident
  obtain ⟨m, hmm'⟩ := h.symm.sameMethod (h.wired'.lt_of_mem_declaredMethods hm')
  exact (hsame m (h.wired.mem_declaredMethods hmm'.lt') idents
    (hmm'.mention ▸ hidents) ident hident).symm

/-- What is used has a counterpart that is used. -/
theorem uses (hsame : p.SameDenoted p') (hdd' : SameMethod p p' d d') (huses : p.Uses d) :
    p'.Uses d' := by
  have hkey := hdd'.key h
  obtain ⟨m, hm⟩ := huses
  obtain ⟨m', hmm'⟩ := h.sameMethod (lt_of_usedIn hm)
  refine ⟨m', h.loaded'.usedIn_iff.mpr ?_⟩
  rw [← hmm'.mention]
  rcases h.loaded.usedIn_iff.mp hm with ⟨keys, hmention, -, hmem⟩ | ⟨idents, hmention, ident, hident, hd⟩
  · exact .inl ⟨keys, hmention, hdd'.lt', hkey ▸ hmem⟩
  · -- the identifier denotes the counterpart there, because the two have the same key
    have hmap := hsame m (h.wired.mem_declaredMethods hmm'.lt) idents hmention ident hident
    rw [hd, Option.map_some] at hmap
    obtain ⟨k', hk', hkey'⟩ := Option.map_eq_some_iff.mp hmap.symm
    have hkd : k' = d' := h.loaded'.keysApart k' d'
      (h.wired'.lt_of_mem_declaredMethods (List.mem_of_find?_eq_some hk')) hdd'.lt'
      (hkey'.trans hkey)
    exact .inr ⟨idents, hmention, ident, hident, hkd ▸ hk'⟩

/-- Default methods that need a twin have counterparts that need one. -/
theorem needsTwin (hsame : p.SameDenoted p') (hdd' : SameMethod p p' d d') (hd : p.NeedsTwin d) :
    p'.NeedsTwin d' := by
  obtain ⟨hdefault, hneeded⟩ := hd
  refine ⟨hdd'.isDefault h ▸ hdefault, ?_⟩
  exact hneeded.imp (h.implemented hdd'.home) (h.uses hsame hdd')

end Rearranged

end DefaultLowering.Program
