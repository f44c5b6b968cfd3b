import DefaultLowering.Lowering.Run
import DefaultLowering.Proofs.Fragments

/-!
# When lowering fails

A renamed invocation needs a scope, which is found through its qualifier: `this`, an unqualified name of
the script, or a chain of references that begins with one of these and does not pass through a default
method, because such a reference loses its qualifier.  A run fails if and only if some fragment invokes a
default method through any other qualifier.

When a fragment is met, its own parts may have been renamed, and it may have moved to a twin.  Neither
makes a difference: the condition is one on the program as it was loaded.

- `Expr.Resolvable`: the qualifiers through which a scope is found;
- `HasUnresolvable`: the programs that cannot be lowered;
- `run_fails_iff`: a run fails on exactly these, and always in the same way.
-/

namespace DefaultLowering

namespace Fragment

/-! ## Section 1: Invoked names -/

/-- What is invoked, an identifier and its qualifier, is part of a tree with these identifiers. -/
structure PartOf (idents : List String) (bound : Prop) (c : String × Expr) : Prop where
  ident : c.1 ∈ idents
  idents : ∀ ident ∈ c.2.idents, ident ∈ idents
  bound : bound → c.2.Bound

namespace PartOf

variable {idents idents' : List String} {bound bound' : Prop} {c : String × Expr}

theorem mono (h : PartOf idents bound c) (hidents : ∀ ident ∈ idents, ident ∈ idents')
    (hbound : bound' → bound) : PartOf idents' bound' c :=
  ⟨hidents _ h.ident, fun ident hident => hidents ident (h.idents ident hident),
    fun hb => h.bound (hbound hb)⟩

theorem append {cs cs' : List (String × Expr)} (h : ∀ c ∈ cs, PartOf idents bound c)
    (h' : ∀ c ∈ cs', PartOf idents' bound' c) :
    ∀ c ∈ cs ++ cs', PartOf (idents ++ idents') (bound ∧ bound') c := by
  intro c hc
  rcases List.mem_append.mp hc with hc | hc
  · exact (h c hc).mono (fun _ => List.mem_append_left _) And.left
  · exact (h' c hc).mono (fun _ => List.mem_append_right _) And.right

end PartOf

/-- The names that are invoked in a part, and their qualifiers, are in the part. -/
theorem Part.partOf (a : Part) : ∀ c ∈ a.invoked, PartOf a.idents a.Bound c := by
  induction a using Part.induct with
  | absent | this | literal | noArgs | absentStmt | noStmts | noDecls => exact nofun
  | name ident q level ih =>
    exact fun c hc => (ih c hc).mono (fun _ => List.mem_cons_of_mem _) And.right
  | invoke ident q level xs ihq ihxs =>
    intro c hc
    rcases List.mem_append.mp hc with hc | hc
    · exact (PartOf.append ihq ihxs c hc).mono (fun _ => List.mem_cons_of_mem _) (And.imp_left And.right)
    · -- the name that is invoked here
      rw [List.mem_singleton.mp hc]
      refine ⟨List.mem_append_left _ List.mem_cons_self, ?_, fun hbound => hbound.1.2⟩
      exact fun _ hident => List.mem_append_left _ (List.mem_cons_of_mem _ hident)
  | call x xs hx ihx ihxs =>
    rw [Part.invoked, Expr.invoked_call hx]
    exact PartOf.append ihx ihxs
  | binary _ _ _ ih ih' | moreArgs _ _ ih ih' | moreStmts _ _ ih ih' | moreDecls _ _ _ ih ih' =>
    exact PartOf.append ih ih'
  | unary _ _ ih | func _ ih | block _ ih | exprStmt _ ih | ret _ ih | var _ ih | function _ _ _ _ ih =>
    exact ih
  | cond x s t ihx ihs iht =>
    intro c hc
    refine (PartOf.append ihx (PartOf.append ihs iht) c hc).mono (fun ident hident => ?_) id
    rwa [← List.append_assoc] at hident

theorem Function.partOf (f : Function) : ∀ c ∈ f.invoked, PartOf f.idents f.Bound c :=
  (Part.function f).partOf

/-! ## Section 2: Resolvable qualifiers -/

/-- The qualifiers through which a scope is found, where `isDefault` says which identifiers name default
    methods. -/
inductive Expr.Resolvable (isDefault : String → Prop) : Expr → Prop where
  | this : Resolvable isDefault .this
  /-- An unqualified name of the script. -/
  | script (ident : String) (level : Option Nat) (h : isMemberIdent ident = false) :
    Resolvable isDefault (.name ident .absent level)
  /-- A property or a member reference. -/
  | chain (ident : String) (q : Expr) (level : Option Nat) (h : ¬isDefault ident)
    (hq : Resolvable isDefault q) : Resolvable isDefault (.name ident q level)

section

variable {isDefault : String → Prop} {renames : Renames}

theorem Expr.resolvable_of_rootLevel {own : Nat} (x : Expr) (hbound : x.Bound)
    (hrenames : ∀ ident ∈ x.idents, isDefault ident → (renames.lookup ident).isSome = true)
    (hlevel : (x.rootLevel renames own).isSome = true) : x.Resolvable isDefault := by
  cases x with
  | this => exact .this
  | name ident q level =>
    obtain ⟨hscript, hq⟩ := hbound
    unfold Expr.rootLevel at hlevel
    cases hnew : renames.lookup ident with
    | some =>
      rw [hnew] at hlevel
      cases hlevel
    | none =>
      rw [hnew] at hlevel
      cases level with
      | some =>
        obtain ⟨rfl, hident⟩ := hscript.mp rfl
        exact .script ident _ hident
      | none =>
        refine .chain ident q _ ?_ (Expr.resolvable_of_rootLevel q hq ?_ hlevel)
        · intro hdefault
          have hsome := hrenames ident List.mem_cons_self hdefault
          rw [hnew] at hsome
          cases hsome
        · exact fun ident hident => hrenames ident (List.mem_cons_of_mem _ hident)
  | _ => cases hlevel

theorem Expr.Resolvable.rootLevel {own : Nat} {x : Expr} (h : x.Resolvable isDefault)
    (hmember : ∀ ident, isDefault ident → isMemberIdent ident = true) (hbound : x.Bound)
    (hrenames : ∀ ident ∈ x.idents, (renames.lookup ident).isSome = true → isDefault ident) :
    (x.rootLevel renames own).isSome = true := by
  -- what does not name a default method is not renamed
  have hnone : ∀ ident ∈ x.idents, ¬isDefault ident → renames.lookup ident = none := by
    intro ident hident hnot
    cases hnew : renames.lookup ident with
    | none => rfl
    | some => exact absurd (hrenames ident hident (by rw [hnew]; rfl)) hnot
  clear hrenames
  induction h with
  | this => rfl
  | script ident level hident =>
    have hnot : ¬isDefault ident := by
      intro hdefault
      rw [hmember ident hdefault] at hident
      cases hident
    obtain ⟨level, rfl⟩ := Option.isSome_iff_exists.mp (hbound.1.mpr ⟨rfl, hident⟩)
    simp only [Expr.rootLevel, hnone ident List.mem_cons_self hnot, Option.isSome_some]
  | chain ident q level hnot hq ih =>
    simp only [Expr.rootLevel, hnone ident List.mem_cons_self hnot]
    cases level with
    | some => rfl
    | none => exact ih hbound.2 fun ident hident => hnone ident (List.mem_cons_of_mem _ hident)

/-- If exactly the identifiers of default methods are renamed, a bound function can be renamed exactly if
    it invokes default methods through resolvable qualifiers only. -/
theorem Function.safe_iff {f : Function} (hbound : f.Bound) (hblocks : f.Blocks)
    (hmember : ∀ ident, isDefault ident → isMemberIdent ident = true)
    (hrenames : ∀ ident ∈ f.idents, (renames.lookup ident).isSome = true ↔ isDefault ident) :
    f.Safe renames ↔ ∀ c ∈ f.invoked, isDefault c.1 → c.2.Resolvable isDefault := by
  constructor
  · rintro ⟨hsettled, -⟩ c hc hdefault
    have hpart := f.partOf c hc
    refine Expr.resolvable_of_rootLevel c.2 (hpart.bound hbound) ?_
      (hsettled c hc ((hrenames c.1 hpart.ident).mpr hdefault))
    exact fun ident hident => (hrenames ident (hpart.idents ident hident)).mpr
  · refine fun hresolvable => ⟨fun c hc hsome => ?_, hblocks⟩
    have hpart := f.partOf c hc
    have hdefault := (hrenames c.1 hpart.ident).mp hsome
    refine (hresolvable c hc hdefault).rootLevel hmember (hpart.bound hbound) ?_
    exact fun ident hident => (hrenames ident (hpart.idents ident hident)).mp

theorem Function.blocks_withReceiver (f : Function) : f.withReceiver.Blocks ↔ f.Blocks := by
  cases f with
  | mk name params names body =>
    have hbody : body.readingReceiver.IsBody ↔ body.IsBody := by
      cases body <;> exact Iff.rfl
    exact and_congr (Part.blocks_readingReceiver (.stmt body)) hbody

end

end Fragment

namespace Program

open Fragment

/-! ## Section 3: Programs that cannot be lowered -/

/-- The identifier names a default method. -/
def NamesDefault (p : Program) (ident : String) : Prop :=
  ∃ d, p.denoted ident = some d ∧ p.isDefault d = true

/-- Some fragment invokes a default method through a qualifier that is not resolvable. -/
def HasUnresolvable (p : Program) : Prop :=
  ∃ m pos f refs, p.Native m pos f refs ∧
    ∃ c ∈ f.invoked, p.NamesDefault c.1 ∧ ¬c.2.Resolvable p.NamesDefault

section

variable {p q : Program} {m : MethodRef} {pos : Pos} {f : Fragment.Function} {refs : List Linkage}

theorem NamesDefault.isMemberIdent {ident : String} (h : p.NamesDefault ident) :
    isMemberIdent ident = true := by
  obtain ⟨d, hd, -⟩ := h
  rw [← memberIdent_of_denoted hd]
  exact isMemberIdent_memberIdent p d

/-- Among the identifiers of a loaded fragment, exactly those of default methods are renamed. -/
theorem Fresh.lookup_linkRenames_iff (hp : p.Fresh) (hbody : p.Native m pos f refs)
    (hdefault : q.isDefault = p.isDefault) {name : MethodRef → String} :
    ∀ ident ∈ f.idents,
      ((q.linkRenames name refs).lookup ident).isSome = true ↔ p.NamesDefault ident := by
  obtain ⟨hcomplete, htarget, -⟩ := hp.linked m pos f refs hbody
  intro ident hident
  constructor
  · intro hsome
    obtain ⟨new, hnew⟩ := Option.isSome_iff_exists.mp hsome
    obtain ⟨r, hr, d, hd, rfl, -⟩ := lookup_linkRenames hnew
    obtain ⟨hrd, hisDefault⟩ := linkedDefault_eq_some.mp hd
    obtain ⟨k, hk, hdenoted⟩ := htarget r hr
    rw [hrd, Option.some.injEq] at hk
    subst hk
    exact ⟨d, hdenoted, hdefault ▸ hisDefault⟩
  · intro hnames
    have hmember := hnames.isMemberIdent
    obtain ⟨d, hd, hisDefault⟩ := hnames
    have hmethod : isMethodIdent ident = true := by
      rw [← memberIdent_of_denoted hd]
      exact isMethodIdent_memberIdent p d
    obtain ⟨r, hr, rfl⟩ := hcomplete ident (List.mem_filter.mpr ⟨hident, hmember⟩) hmethod
    obtain ⟨k, hk, hdenoted⟩ := htarget r hr
    rw [hd, Option.some.injEq] at hdenoted
    subst hdenoted
    have hlinked : q.linkedDefault r = some d :=
      linkedDefault_eq_some.mpr ⟨hk, hdefault ▸ hisDefault⟩
    cases hnew : (q.linkRenames name refs).lookup r.ident with
    | some => rfl
    | none =>
      rw [linkedDefault_of_lookup hr hnew] at hlinked
      cases hlinked

/-- A loaded fragment can be renamed exactly if it invokes default methods through resolvable qualifiers
    only. -/
theorem Fresh.safe_iff (hp : p.Fresh) (hbody : p.Native m pos f refs)
    (hdefault : q.isDefault = p.isDefault) {name : MethodRef → String} :
    f.Safe (q.linkRenames name refs) ↔
      ∀ c ∈ f.invoked, p.NamesDefault c.1 → c.2.Resolvable p.NamesDefault := by
  obtain ⟨hbound, hblocks⟩ := hp.bound m pos f refs hbody
  exact Function.safe_iff hbound hblocks (fun _ => NamesDefault.isMemberIdent)
    (hp.lookup_linkRenames_iff hbody hdefault)

/-- A run that fails has met a fragment that cannot be renamed, with the receiver or without. -/
theorem Stopped.hasUnresolvable (hp : p.Fresh) {cache : NameCache} {fault : Fault}
    (h : Stopped cache p fault) : p.HasUnresolvable ∧ fault.category = .invariant := by
  obtain ⟨q, k, pos, f, refs, name, hsteps, hbody, hlinked, hunsafe, hcategory⟩ := h
  have hdefault := (hsteps.extends hp.toCoherent).isDefault
  have hdefaults : ∃ d ∈ linkTargets refs, q.isDefault d = true := by
    rw [ne_eq, linkRenames_eq_nil] at hlinked
    push Not at hlinked
    simpa using hlinked
  -- the fragment of loading has the same blocks, and cannot be renamed either
  have horigin : ∃ m f', p.Native m pos f' refs ∧ (f.Blocks ↔ f'.Blocks) ∧
      ¬f'.Safe (q.linkRenames name refs) := by
    rcases hsteps.original hp.toCoherent hbody hdefaults with hsame | ⟨m, f', -, horiginal, rfl⟩
    · exact ⟨k, f, hsame, Iff.rfl, hunsafe⟩
    · have hreceiver : (q.linkRenames name refs).lookup receiverParam = none :=
        lookup_linkRenames_receiver (hp.isMemberIdent horiginal)
      exact ⟨m, f', horiginal, f'.blocks_withReceiver, mt (f'.safe_withReceiver hreceiver).mpr hunsafe⟩
  obtain ⟨m, f', horiginal, hblocks, hunsafe'⟩ := horigin
  refine ⟨⟨m, pos, f', refs, horiginal, ?_⟩, ?_⟩
  · rw [hp.safe_iff horiginal hdefault] at hunsafe'
    push Not at hunsafe'
    exact hunsafe'
  · exact hcategory (hblocks.mpr (hp.bound m pos f' refs horiginal).2)

/-- A successful run has renamed all fragments. -/
theorem Phases.not_hasUnresolvable {cache cache' : NameCache} (h : Phases p cache q cache')
    (hp : p.Fresh) : ¬p.HasUnresolvable := by
  rintro ⟨m, pos, f, refs, hbody, c, hc, hdefault, hqualifier⟩
  obtain ⟨-, hsafe, -⟩ := h.lodged hp hbody
  have hext := h.steps.extends hp.toCoherent
  exact hqualifier ((hp.safe_iff hbody hext.isDefault).mp hsafe c hc hdefault)

end

/-! ## Section 4: Runs -/

/-- A run on a loaded program, without the check, fails with a violated invariant if and only if some
    fragment invokes a default method through a qualifier that is not resolvable.  In every other case it
    succeeds: there is a summary and no error. -/
theorem run_fails_iff {p : Program} (hp : p.Loaded) (cache : NameCache) :
    ((∃ fault, fault.category = .invariant ∧ (p.run false cache).error = some (.fault fault) ∧
        (p.run false cache).summary = none) ↔ p.HasUnresolvable) ∧
      (¬p.HasUnresolvable → (p.run false cache).error = none ∧
        ∃ summary, (p.run false cache).summary = some summary) := by
  have hfresh := hp.fresh
  rcases hrun : p.lower cache with ⟨q, cache', fault | summary⟩
  · have hstopped : Stopped cache p fault := lower_stopped hfresh.toCoherent (by rw [hrun])
    obtain ⟨hunresolvable, hcategory⟩ := hstopped.hasUnresolvable hfresh
    refine ⟨⟨fun _ => hunresolvable, fun _ => ⟨fault, hcategory, ?_, ?_⟩⟩, absurd hunresolvable⟩
    · simp only [run, hrun]
    · simp only [run, hrun]
  · have hresolvable := (lower_phases hfresh.toCoherent hrun).not_hasUnresolvable hfresh
    have herror : (p.run false cache).error = none := by simp [run, hrun]
    refine ⟨⟨?_, fun h => absurd h hresolvable⟩, fun _ => ⟨herror, summary, by simp [run, hrun]⟩⟩
    rintro ⟨fault, -, hfault, -⟩
    rw [herror] at hfault
    cases hfault

/-- A default method is invoked through a reference to a default method, which begins with a name of the
    script but loses it. -/
def stray : Description where
  version := "1.0"
  types := [
    { name := "Source"
      kind := "interface"
      methods := [
        { name := "next"
          returns := "Source"
          native := some "return this;" }] },
    { name := "Reader"
      kind := "class"
      methods := [
        { name := "run"
          params := [{ name := "s", type := "Source" }]
          returns := "Source"
          native := some "return s.@Source::next().@Source::next()();" }] }]

/-- The program so described. -/
def strayProgram : Program :=
  match Description.build "stray" stray with
  | .ok p => p
  | .error _ => {}

theorem stray_loaded : strayProgram.Loaded := by
  have hok : (Description.build "stray" stray).isOk = true := by decide +kernel
  obtain ⟨p, hp⟩ := Description.exists_of_isOk hok
  refine ⟨"stray", stray, ?_⟩
  rw [strayProgram, hp]

theorem run_fails_iff_stray : strayProgram.Loaded ∧ strayProgram.HasUnresolvable ∧
    (∃ fault, fault.category = .invariant ∧ (strayProgram.run false {}).error = some (.fault fault)) ∧
    greetingProgram.Loaded ∧ ¬greetingProgram.HasUnresolvable ∧
    (greetingProgram.run false {}).error = none := by
  have hstray : (strayProgram.run false {}).error.isSome = true := by decide +kernel
  have hfails : strayProgram.HasUnresolvable := by
    by_contra hnot
    rw [((run_fails_iff stray_loaded {}).2 hnot).1] at hstray
    cases hstray
  have hsucceeds : ¬greetingProgram.HasUnresolvable := by
    intro h
    obtain ⟨q, cache, summary, hrun, -, -⟩ := greeting_lowers
    obtain ⟨fault, -, -, hnone⟩ := (run_fails_iff greeting_loaded {}).1.mpr h
    simp [run, hrun] at hnone
  obtain ⟨fault, hcategory, herror, -⟩ := (run_fails_iff stray_loaded {}).1.mpr hfails
  exact ⟨stray_loaded, hfails, ⟨fault, hcategory, herror⟩, greeting_loaded, hsucceeds,
    ((run_fails_iff greeting_loaded {}).2 hsucceeds).1⟩

end Program

end DefaultLowering
