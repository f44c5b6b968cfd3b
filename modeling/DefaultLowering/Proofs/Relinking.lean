import DefaultLowering.Proofs.PostCondition
import DefaultLowering.Proofs.Rewording

/-!
# Lowered fragments are read again, and are linked

The text of a fragment, its linkage and the names of twins are changed in different places.  Here they
are shown to agree in the end: the fragments of a lowered program can be written and are read again as
the same trees, every method to which they refer has one entry in the linkage, under its own
identifier, and none of these references denotes a default method.

Fragments are followed through all steps.  A step leaves a fragment as it is, moves it with the
receiver, or renames it (`Step.native_cases`).

- `Loaded.parsed`: the fragments of a loaded program have been read from texts;
- `IsTwin.isMemberWord`: a twin can be referred to where its default method can;
- `WellLinked`: the invariant, kept by every step (`Step.wellLinked`);
- `lower_relinked`: what holds of the fragments of a lowered program.
-/

namespace DefaultLowering.Program

open Fragment Description

variable {m : MethodRef} {refs : List Linkage} {pos : Pos}

/-! ## Section 1: Loaded fragments -/

/-- The fragment has been read from a text. -/
def Parsed (f : Fragment.Function) : Prop :=
  ∃ source params chain chain', Fragment.parse source params chain = .ok (f, chain')

section

variable {p q : Program} {file : String} {index : MemberIndex}

/-- The fragment of a method that has got a body is the new one, unless it belongs to another method. -/
theorem native_setBody {k : MethodRef} {b : Option Body} {f : Fragment.Function}
    (h : (p.setBody m b).Native k pos f refs) :
    b = some (.native pos (some f) refs) ∨ p.Native k pos f refs := by
  unfold Native at h ⊢
  by_cases hk : k = m
  · have hlt := lt_of_body h
    rw [length_methods_setBody] at hlt
    rw [hk] at h hlt
    rw [method_setBody_self b hlt] at h
    exact .inl h
  · rw [method_setBody_ne b hk] at h
    exact .inr h

/-- A body of statements is no fragment. -/
theorem buildBody_ne_native (s : Description.Site) (body : Description.Body)
    {f : Option Fragment.Function} :
    buildBody s body ≠ .ok (some (.native pos f refs)) := by
  intro hok
  cases body with
  | absent => cases hok
  | notAList => cases hok
  | stmts =>
    obtain ⟨stmts', -, hok⟩ := bind_eq_ok.mp hok
    cases hok

theorem buildMethodBody_parsed {d : Description.Method}
    (hp : ∀ k pos f refs, p.Native k pos f refs → Parsed f)
    (hok : buildMethodBody file index m d p = .ok q) :
    ∀ k pos f refs, q.Native k pos f refs → Parsed f := by
  intro k pos f refs hbody
  unfold buildMethodBody at hok
  cases hd : d.native with
  | some source =>
    simp only [hd, buildFragment] at hok
    split at hok
    · cases hok
    · rename_i g chain hparse
      split at hok
      · cases hok
      · cases hok
        rcases native_setBody hbody with hb | hold
        · cases hb
          exact ⟨_, _, _, _, hparse⟩
        · exact hp k pos f refs hold
  | none =>
    simp only [hd] at hok
    obtain ⟨b, hb, hok⟩ := bind_eq_ok.mp hok
    cases hok
    rcases native_setBody hbody with rfl | hold
    · exact absurd hb (buildBody_ne_native _ _)
    · exact hp k pos f refs hold

/-- What holds before there are bodies, and is kept when a method gets its body, holds of a loaded
    program. -/
theorem Loaded.induct {P : Program → Prop} (h : p.Loaded)
    (linked : ∀ {file} {x : Description} {p₀}, x.linked file = .ok p₀ →
      (∀ k, (p₀.method k).body = none) → P p₀)
    (body : ∀ {file index m d p q}, buildMethodBody file index m d p = .ok q → P p → P q) : P p := by
  obtain ⟨file, x, hok⟩ := h
  rw [build_eq] at hok
  obtain ⟨p₀, hlinked, hbuild⟩ := bind_eq_ok.mp hok
  obtain ⟨done, -, hround⟩ := bind_eq_ok.mp hbuild
  have hp₀ := linked hlinked (linked_describes hlinked).1.bodies
  -- by induction on the methods that have no body yet
  generalize p₀.declaredMethods.zip (x.types.flatMap (·.methods)) = ds at hround
  generalize (NameCache.index {} p₀).1 = index at hround
  clear hlinked hbuild
  induction ds generalizing p₀ with
  | nil =>
    cases hround
    exact hp₀
  | cons d ds ih =>
    obtain ⟨p₁, hd, hround⟩ := bind_eq_ok.mp hround
    exact ih p₁ (body hd hp₀) hround

/-- The fragments of a loaded program have been read from texts. -/
theorem Loaded.parsed (h : p.Loaded) {f : Fragment.Function} (hbody : p.Native m pos f refs) :
    Parsed f := by
  refine h.induct (P := fun p => ∀ k pos f refs, p.Native k pos f refs → Parsed f)
    (fun _ hnone k pos f refs hnative => ?_) (fun hok hp => buildMethodBody_parsed hp hok) m pos f refs
    hbody
  unfold Native at hnative
  rw [hnone k] at hnative
  cases hnative

end

/-! ## Section 2: References to twins -/

/-- A descriptor has no closing bracket that the type has not. -/
theorem not_mem_descriptorChars {cs : List Char} (h : ')' ∉ cs) :
    ')' ∉ TypeName.descriptorChars cs := by
  fun_induction TypeName.descriptorChars cs with
  | case1 cs es helem ih =>
    rw [List.mem_cons, not_or]
    refine ⟨by decide, ih fun hmem => h ?_⟩
    unfold TypeName.elemChars? at helem
    split at helem
    · rename_i rest hrest
      cases helem
      rw [← List.mem_reverse, hrest]
      exact List.mem_cons_of_mem _ (List.mem_cons_of_mem _ (List.mem_reverse.mp hmem))
    · cases helem
  | case2 cs helem =>
    unfold TypeName.plainDescriptor
    split
    · rename_i d hd
      obtain ⟨xs, ys, hlist, -⟩ := List.lookup_eq_some_iff.mp hd
      have hletters : (TypeName.primitives.all fun e => e.2 != ')') = true := by decide
      have hletter := List.all_eq_true.mp hletters (String.ofList cs, d) (by rw [hlist]; simp)
      rw [List.mem_singleton]
      exact Ne.symm (bne_iff_ne.mp hletter)
    · split
      · decide
      · intro hmem
        rw [List.mem_append, List.mem_cons, List.mem_map] at hmem
        rcases hmem with (hmem | ⟨c, hc, hmem⟩) | hmem
        · revert hmem
          decide
        · -- only dots are replaced, and by slashes
          split at hmem
          · revert hmem
            decide
          · exact h (hmem ▸ hc)
        · revert hmem
          decide

theorem continuesIdent_of_isNameChar {c : Char} (h : isNameChar c = true) :
    continuesIdent c = true := by
  have hstarts : startsIdent c = true → continuesIdent c = true := fun h =>
    Bool.or_eq_true_iff.mpr (.inl h)
  rcases Bool.or_eq_true_iff.mp h with h | hdollar
  · rcases Bool.or_eq_true_iff.mp h with h | hscore
    · rcases Bool.or_eq_true_iff.mp h with h | hdigit
      · apply hstarts
        rcases Bool.or_eq_true_iff.mp h with hupper | hlower
        · obtain ⟨hlow, hhigh⟩ := of_decide_eq_true hupper
          exact Bool.or_eq_true_iff.mpr (.inr
            (Bool.and_eq_true_iff.mpr ⟨decide_eq_true hlow, decide_eq_true hhigh⟩))
        · exact Bool.or_eq_true_iff.mpr (.inl (Bool.or_eq_true_iff.mpr (.inr hlower)))
      · exact Bool.or_eq_true_iff.mpr (.inr hdigit)
    · rw [beq_iff_eq.mp hscore]
      decide
  · rw [beq_iff_eq.mp hdollar]
    decide

theorem isTypePart_of_isTypeNameChar {c : Char} (h : isTypeNameChar c = true) :
    isTypePart c = true := by
  rcases Bool.or_eq_true_iff.mp h with hname | hdot
  · exact Bool.or_eq_true_iff.mpr (.inl (continuesIdent_of_isNameChar hname))
  · exact Bool.or_eq_true_iff.mpr (.inr hdot)

/-- A twin can be referred to where its default method can. -/
theorem IsTwin.isMemberWord {q : Program} {d t : MethodRef} (h : q.IsTwin d t)
    (htype : (q.enclosingName d).toList.all isTypeNameChar = true) (hname : Plain (q.method d).name)
    (hword : isMemberWord (q.memberIdent d) = true) : isMemberWord (q.memberIdent t) = true := by
  have htypes : (q.enclosingName d).toList.all isTypePart = true :=
    List.all_eq_true.mpr fun c hc => isTypePart_of_isTypeNameChar (List.all_eq_true.mp htype c hc)
  have hnames : (q.method d).name.toList.all continuesIdent = true :=
    List.all_eq_true.mpr fun c hc =>
      continuesIdent_of_isNameChar (List.all_eq_true.mp hname.1 c hc)
  have hclean : ∀ c, isTypePart c = false → c ∉ (q.enclosingName d).toList := by
    intro c hc hmem
    rw [List.all_eq_true.mp htypes c hmem] at hc
    cases hc
  obtain ⟨hne, hparams⟩ := text_of_isMemberWord (toList_memberIdent q d) (hclean ':' (by decide))
    hnames hword
  have henclosing : q.enclosingName t = q.enclosingName d := by
    simp only [enclosingName, h.enclosing]
  refine isMemberWord_of_text (toList_memberIdent q t) ?_ ?_ ?_ ?_ ?_
  · rw [henclosing]
    exact hne
  · rw [henclosing]
    exact htypes
  · rw [h.name, String.toList_append]
    exact List.append_ne_nil_of_right_ne_nil _ (by decide)
  · rw [h.name, String.toList_append, List.all_append, hnames]
    decide
  · -- the first parameter of the twin is the interface, and the others are those of the method
    rw [h.params, List.map_cons, String.join_cons, String.toList_append, List.mem_append, not_or]
    refine ⟨?_, hparams⟩
    rw [TypeName.descriptor, String.toList_ofList]
    exact not_mem_descriptorChars (hclean ')' (by decide))

/-! ## Section 3: Distinct entries -/

theorem nodup_addLinkage (h : (refs.map (·.ident)).Nodup) (r : Linkage) :
    ((addLinkage refs r).map (·.ident)).Nodup := by
  unfold addLinkage
  split
  · exact h
  · rename_i hnone
    rw [List.map_append, List.map_singleton, List.nodup_append]
    refine ⟨h, by simp, ?_⟩
    intro ident hident e he heq
    obtain ⟨x, hx, rfl⟩ := List.mem_map.mp hident
    rw [List.mem_singleton] at he
    exact hnone (List.any_eq_true.mpr ⟨x, hx, beq_iff_eq.mpr (heq.trans he)⟩)

/-- No identifier has two entries when repeated ones have been dropped. -/
theorem nodup_distinctLinkage (refs : List Linkage) :
    ((distinctLinkage refs).map (·.ident)).Nodup := by
  have hfold : ∀ acc : List Linkage, (acc.map (·.ident)).Nodup →
      ((refs.foldl addLinkage acc).map (·.ident)).Nodup := by
    induction refs with
    | nil => exact fun acc hacc => hacc
    | cons r refs ih => exact fun acc hacc => ih _ (nodup_addLinkage hacc r)
  exact hfold [] List.nodup_nil

/-! ## Section 4: Fragments in the course of lowering -/

section

variable {permit : Permit} {p q r : Program} {m : MethodRef} {pos : Pos} {f g : Fragment.Function}
  {refs : List Linkage}

/-- The fragment `g` with the linkage `refs` is a fragment of the program that has been renamed, with
    identifiers that the permit allows. -/
def RenamedFrom (permit : Permit) (q : Program) (m : MethodRef) (pos : Pos)
    (g : Fragment.Function) (refs : List Linkage) : Prop :=
  ∃ f refs' name, q.Native m pos f refs' ∧ q.Served (linkTargets refs') ∧
    (∀ d ∈ linkTargets refs', q.isDefault d = true → ∀ t, q.staticOf? d = some t →
      permit.names q t (name d)) ∧
    f.Safe (q.linkRenames name refs') ∧ g = f.renamed (q.linkRenames name refs') 0 ∧
      refs = distinctLinkage (refs'.map (q.relink name))

/-- Where the fragments after a step come from: they are left as they are, moved or renamed. -/
theorem Step.native_cases (hstep : Step permit q r) (hq : q.Coherent) (h : r.Native m pos g refs) :
    q.Native m pos g refs ∨ (∃ d f, q.Native d pos f refs ∧ g = f.withReceiver) ∨
      RenamedFrom permit q m pos g refs := by
  cases hstep with
  | twin d hd =>
    rcases fragment_withTwin_cases hq.toWired hd h with ⟨-, f, hold, rfl⟩ | hsame
    · exact .inr (.inl ⟨d, f, hold, rfl⟩)
    · exact .inl hsame
  | forwarder =>
    rcases body_withMethod_cases rfl h with ⟨-, hnew⟩ | hsame
    · cases hnew
    · exact .inl hsame
  | code k kpos block hk =>
    rcases body_withBody_cases hk h with ⟨-, hnew⟩ | hsame
    · cases hnew
    · exact .inl hsame
  | fragment k kpos f refs' name hk hserved hname hlinked hsafe =>
    rcases body_withBody_cases hk h with ⟨rfl, hnew⟩ | hsame
    · cases hnew
      exact .inr (.inr ⟨f, refs', name, hk, hserved, hname, hsafe, rfl, rfl⟩)
    · exact .inl hsame

/-- The fragment can be written and is read again, and its linkage has one entry for each identifier,
    which belongs to the method that is targeted. -/
structure WellLinked (q : Program) (f : Fragment.Function) (refs : List Linkage) : Prop where
  unnamed : f.name = ""
  block : f.body.isBlock = true
  proper : f.body.all (Node.isProper keywords) = true
  distinct : (refs.map (·.ident)).Nodup
  target : ∀ r ∈ refs, ∃ t, t.index < q.methods.length ∧ r.target = some t ∧
    r.ident = q.memberIdent t

theorem WellLinked.extends (h : WellLinked q f refs) (hext : q.Extends r) : WellLinked r f refs := by
  refine { h with target := ?_ }
  intro x hx
  obtain ⟨t, ht, htarget, hident⟩ := h.target x hx
  refine ⟨t, Nat.lt_of_lt_of_le ht hext.length_methods, htarget, ?_⟩
  rw [hident, memberIdent, memberIdent, hext.memberText ht]

theorem WellLinked.withReceiver (h : WellLinked q f refs) : WellLinked q f.withReceiver refs := by
  obtain ⟨name, params, names, body⟩ := f
  refine { h with block := ?_, proper := ?_ }
  · exact body.isBlock_readingReceiver.trans h.block
  · exact (Part.stmt body).proper_readingReceiver (by decide) h.proper

/-- Types keep their plain names. -/
theorem PlainNames.enclosingName (h : p.PlainNames) (hext : p.Extends q) (hq : q.Wired)
    (hm : m.index < q.methods.length) :
    (q.enclosingName m).toList.all isTypeNameChar = true := by
  obtain ⟨t, ht, henclosing, -⟩ := hq.owner m hm
  simp only [Program.enclosingName, henclosing, hext.typeName]
  exact h.types t (hext.declared ▸ ht)

/-- The default methods among the targets have twins, which are linked under their own identifiers. -/
def NamesTwins (q : Program) (name : MethodRef → String) (refs : List Linkage) : Prop :=
  ∀ d ∈ linkTargets refs, q.isDefault d = true → ∃ t, q.staticOf? d = some t ∧
    name d = q.memberIdent t

section

variable {name : MethodRef → String}

/-- The entry of a default method is one under its own identifier. -/
theorem WellLinked.linkedDefault (h : WellLinked q f refs) {x : Linkage} (hx : x ∈ refs)
    {d : MethodRef} (hd : q.linkedDefault x = some d) :
    d ∈ linkTargets refs ∧ q.isDefault d = true ∧ x.ident = q.memberIdent d := by
  obtain ⟨htarget, hdefault⟩ := linkedDefault_eq_some.mp hd
  obtain ⟨t, -, htarget', hident⟩ := h.target x hx
  rw [htarget, Option.some.injEq] at htarget'
  exact ⟨mem_linkTargets.mpr ⟨x, hx, htarget⟩, hdefault, htarget' ▸ hident⟩

/-- The identifiers of twins are given where those of default methods stood. -/
theorem WellLinked.rewords (h : WellLinked q f refs) (hq : q.Coherent) (hs : q.Spelled)
    (htypes : ∀ d, q.isDefault d = true → (q.enclosingName d).toList.all isTypeNameChar = true)
    (hname : q.NamesTwins name refs) : Rewords (q.linkRenames name refs) := by
  intro old new hnew
  obtain ⟨x, hx, d, hd, rfl, rfl⟩ := lookup_linkRenames hnew
  obtain ⟨hmem, hdefault, hident⟩ := h.linkedDefault hx hd
  obtain ⟨t, ht, hname⟩ := hname d hmem hdefault
  rw [hident, hname]
  refine ⟨isMemberIdent_memberIdent q d, fun hword => ⟨?_, isMethodIdent_memberIdent q t⟩⟩
  exact (hq.twin d t hdefault ht).isMemberWord (htypes d hdefault)
    (hs.plain_default hq hdefault) hword

/-- A well-linked fragment is well linked when it has been renamed. -/
theorem WellLinked.renamed (h : WellLinked q f refs) (hq : q.Coherent)
    (hwords : Rewords (q.linkRenames name refs)) (hname : q.NamesTwins name refs)
    (hsafe : f.Safe (q.linkRenames name refs)) :
    WellLinked q (f.renamed (q.linkRenames name refs) 0)
      (distinctLinkage (refs.map (q.relink name))) where
  unnamed := by
    cases f
    exact h.unnamed
  block := by
    obtain ⟨_, _, _, body⟩ := f
    exact body.isBlock_renamed.trans h.block
  proper := by
    obtain ⟨_, _, _, body⟩ := f
    exact (Part.stmt body).proper_renamed hwords 0 hsafe.1 h.proper
  distinct := nodup_distinctLinkage _
  target := by
    intro y hy
    obtain ⟨x, hx, rfl⟩ := List.mem_map.mp (mem_of_mem_distinctLinkage hy)
    cases hd : q.linkedDefault x with
    | none =>
      simp only [relink, hd]
      exact h.target x hx
    | some d =>
      obtain ⟨hmem, hdefault, -⟩ := h.linkedDefault hx hd
      obtain ⟨t, ht, hident⟩ := hname d hmem hdefault
      simp only [relink, hd]
      exact ⟨t, (hq.twin d t hdefault ht).lt, ht, hident⟩

end

/-- Every step keeps fragments well linked. -/
theorem Step.wellLinked (hstep : Step (.any {}) q r) (hq : q.Coherent) (hs : q.Spelled)
    (htypes : ∀ d, q.isDefault d = true → (q.enclosingName d).toList.all isTypeNameChar = true)
    (h : ∀ m pos f refs, q.Native m pos f refs → WellLinked q f refs) :
    ∀ m pos f refs, r.Native m pos f refs → WellLinked r f refs := by
  intro m pos g refs hbody
  apply WellLinked.extends _ (hstep.extends hq)
  rcases hstep.native_cases hq hbody with hsame | ⟨d, f, hold, rfl⟩ |
    ⟨f, refs', name, hold, hserved, hnames, hsafe, rfl, rfl⟩
  · exact h m pos g refs hsame
  · exact (h d pos f refs hold).withReceiver
  · -- with an empty cache to begin with, twins are linked under their own identifiers
    have hname : q.NamesTwins name refs' := by
      intro d hd hdefault
      obtain ⟨t, ht⟩ := Option.isSome_iff_exists.mp (hserved d hd hdefault)
      refine ⟨t, ht, ?_⟩
      exact (hnames d hd hdefault t ht).eq_memberIdent (hq.keysApart hs.apart)
        (hq.twin d t hdefault ht).lt
    have hlinked := h m pos f refs' hold
    exact hlinked.renamed hq (hlinked.rewords hq hs htypes hname) hname hsafe

theorem Steps.wellLinked (hsteps : Steps (.any {}) p q) (hp : p.Coherent) (hs : p.Spelled)
    (hnames : p.PlainNames) (h : ∀ m pos f refs, p.Native m pos f refs → WellLinked p f refs) :
    ∀ m pos f refs, q.Native m pos f refs → WellLinked q f refs := by
  refine (hsteps.induct (P := fun q => ∀ m pos f refs, q.Native m pos f refs → WellLinked q f refs)
    hp h ?_).2
  intro q r hpq hq ih hstep
  refine hstep.wellLinked hq (hpq.spelled hp hs) ?_ ih
  intro d hd
  exact hnames.enclosingName (hpq.extends hp) hq.toWired (lt_of_isDefault hd)

end

/-! ## Section 5: After a run -/

/-- A fragment is tidy if every node of its body is. -/
def Body.isTidy : Body → Bool
  | .native _ (some f) _ => f.body.all Node.isTidy
  | _ => true

/-- All fragments of the program are tidy. -/
def TidyFragments (p : Program) : Prop :=
  ∀ m ∈ p.declaredMethods, (p.method m).body.all Body.isTidy = true

/-- A fragment and its linkage as they should be in a program with the index `index`. -/
structure Relinked (q : Program) (index : MemberIndex) (f : Fragment.Function)
    (refs : List Linkage) : Prop where
  /-- The body can be printed, and its text is read as the same tree. -/
  reread : ∃ text, Node.print (.stmt f.body) = .ok text ∧ ∀ chain, ∃ g chain',
    Fragment.parse (withoutBraces text) f.params chain = .ok (g, chain') ∧ g.unbound = f.unbound
  /-- No identifier has two entries. -/
  distinct : (refs.map (·.ident)).Nodup
  /-- Every entry has a target, under the target's own identifier. -/
  target : ∀ r ∈ refs, ∃ t, r.target = some t ∧ r.ident = "@" ++ q.memberText t
  /-- Every reference to a method has an entry. -/
  complete : ∀ ident ∈ f.memberIdents, isMethodIdent ident = true → ∃ r ∈ refs, r.ident = ident
  /-- Every reference to a method finds a method that is no default method. -/
  found : ∀ ident ∈ f.memberIdents, isMethodIdent ident = true →
    ∃ k, index.lookup ident = some k ∧ q.isDefault k = false

section

variable {p q : Program} {f : Fragment.Function} {refs : List Linkage}

theorem WellLinked.reread (h : WellLinked q f refs) :
    ∃ text, Node.print (.stmt f.body) = .ok text ∧ ∀ chain, ∃ g chain',
      Fragment.parse (withoutBraces text) f.params chain = .ok (g, chain') ∧
        g.unbound = f.unbound := by
  obtain ⟨name, params, names, body⟩ := f
  obtain rfl : name = "" := h.unnamed
  exact parse_of_proper h.block h.proper params

/-- The identifier of an entry denotes something, which is no default method if no fragment refers to
    one. -/
theorem WellLinked.found (h : WellLinked q f refs) (hq : q.Wired) {ident : String}
    (hentry : ∃ r ∈ refs, r.ident = ident)
    (hnone : (q.denoted ident).filter q.isDefault = none) :
    ∃ k, q.denoted ident = some k ∧ q.isDefault k = false := by
  obtain ⟨r, hr, rfl⟩ := hentry
  obtain ⟨t, ht, -, hident⟩ := h.target r hr
  rw [hident] at hnone ⊢
  exact hq.denoted_of_filter ht hnone

/-- The tidy fragments of a loaded program are well linked. -/
theorem Loaded.wellLinked (hp : p.Loaded) (h : p.TidyFragments) (hbody : p.Native m pos f refs) :
    WellLinked p f refs := by
  have hfresh := hp.fresh
  have htidy : f.body.all Node.isTidy = true := by
    have hall := h m (hfresh.mem_declaredMethods (lt_of_body hbody))
    rw [hbody] at hall
    exact hall
  obtain ⟨-, htarget, hdistinct⟩ := hfresh.linked m pos f refs hbody
  obtain ⟨source, params, chain, chain', hparse⟩ := hp.parsed hbody
  obtain ⟨hname, hblock, hproper⟩ := proper_of_parse hparse htidy
  refine ⟨hname, hblock, hproper, hdistinct, ?_⟩
  intro r hr
  obtain ⟨t, ht, hdenoted⟩ := htarget r hr
  refine ⟨t, ?_, ht, (memberIdent_of_denoted hdenoted).symm⟩
  exact hfresh.lt_of_mem_declaredMethods (List.mem_of_find?_eq_some hdenoted)

end

/-- Lowering keeps the fragments of programs with plain names and tidy fragments readable and linked:
    whatever native method there is in the end, its fragment can be printed and is read again as the
    same tree, its linkage has one entry for every method to which it refers, under the identifier of
    the target, and none of these references is found to denote a default method, be it with the
    names that the run remembers or with none. -/
theorem lower_relinked {p q : Program} (hp : p.Loaded) (hnames : p.PlainNames)
    (htidy : p.TidyFragments) {cache : NameCache} {summary : Summary}
    (hrun : p.lower {} = ⟨q, cache, .ok summary⟩) {m : MethodRef} {pos : Pos}
    {func : Option Fragment.Function} {refs : List Linkage}
    (hbody : (q.method m).body = some (.native pos func refs)) :
    ∃ f, func = some f ∧ ∀ known ∈ [cache, {}], Relinked q (known.index q).1 f refs := by
  have hfresh := hp.fresh
  have hcoherent := hfresh.toCoherent
  obtain ⟨hsteps, hremembers, hlowered⟩ := lower_lowered hcoherent hrun
  have hspelled := hnames.spelled hfresh.toWired hfresh.distinct
  have hwired := hlowered.coherent.toWired
  have hkeys := hwired.keysApart (hsteps.spelled hcoherent hspelled).apart
  obtain ⟨f, rfl⟩ := Option.isSome_iff_exists.mp (hlowered.coherent.fragment m pos func refs hbody)
  refine ⟨f, rfl, ?_⟩
  have hlinked : WellLinked q f refs := by
    refine hsteps.wellLinked hcoherent hspelled hnames ?_ m pos f refs hbody
    exact fun _ _ _ _ hnative => hp.wellLinked htidy hnative
  have hsince : LinkedSince p q f refs := by
    refine hsteps.linkedSince hcoherent hspelled ?_ m pos f refs hbody
    intro k kpos g krefs hnative
    obtain ⟨hcomplete, htarget, -⟩ := hfresh.linked k kpos g krefs hnative
    exact ⟨hcomplete, fun r hr => .inl (htarget r hr)⟩
  intro known hknown
  have hfaithful : known.Faithful q := by
    rcases List.mem_cons.mp hknown with rfl | hknown
    · exact NameCache.Faithful.of_remembers hkeys hremembers
    · rw [List.mem_singleton.mp hknown]
      exact NameCache.faithful_empty q
  refine ⟨hlinked.reread, hlinked.distinct, ?_, hsince.complete, ?_⟩
  · intro r hr
    obtain ⟨t, -, htarget, hident⟩ := hlinked.target r hr
    exact ⟨t, htarget, hident⟩
  · intro ident hident hmethod
    rw [NameCache.lookup_index hkeys hwired hfaithful]
    exact hlinked.found hwired (hsince.complete ident hident hmethod)
      (hsince.denotes hfresh hnames hsteps (hlowered.clean m _ hbody) hident)

theorem greeting_tidyFragments : greetingProgram.TidyFragments := by
  unfold TidyFragments
  decide +kernel

theorem lower_relinked_greeting : ∃ q cache summary m pos func refs, greetingProgram.Loaded ∧
    greetingProgram.PlainNames ∧ greetingProgram.TidyFragments ∧
      greetingProgram.lower {} = ⟨q, cache, .ok summary⟩ ∧
      (q.method m).body = some (.native pos func refs) ∧
      ∃ f, func = some f ∧ ∀ known ∈ [cache, {}], Relinked q (known.index q).1 f refs := by
  obtain ⟨q, cache, summary, hrun, -, -⟩ := greeting_lowers
  -- the fragment of a default method, which has moved to the twin
  obtain ⟨pos, f, refs, hnative, -⟩ := greeting_native
  have hfresh := greeting_loaded.fresh
  obtain ⟨-, -, g, hbody, -⟩ := (lower_phases hfresh.toCoherent hrun).lodged hfresh hnative
  exact ⟨q, cache, summary, _, pos, _, _, greeting_loaded, greeting_plainNames,
    greeting_tidyFragments, hrun, hbody,
    lower_relinked greeting_loaded greeting_plainNames greeting_tidyFragments hrun hbody⟩

end DefaultLowering.Program
