import Mathlib.Data.List.Find
import DefaultLowering.Proofs.Clashes
import DefaultLowering.Proofs.Verifying

/-!
# The check of a lowered program finds nothing

Calls and linkage are clear: no method of a lowered program uses a default method, and every class has
its methods.  What remains are the member references of fragments, which are texts.  They are followed
through all steps: every reference to a method has an entry in the linkage, and an entry is either one
from loading, which targets what its identifier denoted then, or it targets a twin under the identifier
of the twin.  An identifier stands for the first method that has it, so that one of a default method may
be left where another method has it too.

- `LinkedSince`: this invariant, kept by every step (`Step.linkedSince`);
- `denoted_of_extends`: new methods do not change what an identifier denotes among the old ones;
- `lower_verified`: the check of what a run leaves finds nothing;
- `lower_shared`: a program that keeps the identifier of a default method.
-/

namespace DefaultLowering.Program

open Description
open Fragment (isMethodIdent)

variable {refs : List Linkage} {f : Fragment.Function} {ident : String} {p q : Program}

/-! ## Section 1: Linkage entries -/

theorem foldl_addLinkage_complete (refs acc : List Linkage) :
    (∀ r ∈ acc, r ∈ refs.foldl addLinkage acc) ∧
      ∀ r ∈ refs, ∃ x ∈ refs.foldl addLinkage acc, x.ident = r.ident := by
  induction refs generalizing acc with
  | nil => exact ⟨fun _ h => h, nofun⟩
  | cons r refs ih =>
    obtain ⟨⟨x, hx, hident⟩, hkept⟩ := addLinkage_complete acc r
    obtain ⟨hacc, hrefs⟩ := ih (addLinkage acc r)
    refine ⟨fun y hy => hacc y (hkept y hy), ?_⟩
    intro y hy
    rcases List.mem_cons.mp hy with rfl | hy
    · exact ⟨x, hacc x hx, hident⟩
    · exact hrefs y hy

/-- Dropping repeated entries loses no identifier. -/
theorem distinctLinkage_complete {r : Linkage} (h : r ∈ refs) :
    ∃ x ∈ distinctLinkage refs, x.ident = r.ident :=
  (foldl_addLinkage_complete refs []).2 r h

/-! ## Section 2: Fragments since loading -/

/-- Every method reference of a fragment has an entry.  An entry comes from the program `p`, where it
    targets what its identifier denotes, or it is an entry of a twin under the twin's identifier. -/
structure LinkedSince (p q : Program) (f : Fragment.Function) (refs : List Linkage) : Prop where
  complete : ∀ ident ∈ f.memberIdents, isMethodIdent ident = true → ∃ r ∈ refs, r.ident = ident
  origin : ∀ r ∈ refs, (∃ k, r.target = some k ∧ p.denoted r.ident = some k) ∨
    ∃ d t, q.isDefault d = true ∧ q.staticOf? d = some t ∧ r.ident = q.memberIdent t

/-- This holds of all fragments. -/
def AllLinkedSince (p q : Program) : Prop :=
  ∀ m pos f refs, (q.method m).body = some (.native pos (some f) refs) → LinkedSince p q f refs

section

variable {p q r : Program}

theorem LinkedSince.extends (h : LinkedSince p q f refs) (hq : q.Coherent) (hext : q.Extends r) :
    LinkedSince p r f refs := by
  refine ⟨h.complete, ?_⟩
  intro x hx
  rcases h.origin x hx with hloaded | ⟨d, t, hd, ht, hident⟩
  · exact .inl hloaded
  · refine .inr ⟨d, t, ?_, hext.staticOf d t hd ht, ?_⟩
    · rw [hext.isDefault]
      exact hd
    · rw [hident, memberIdent, memberIdent, hext.memberText (hq.twin d t hd ht).lt]

/-- A renamed fragment is linked as well. -/
theorem LinkedSince.renamed {name : MethodRef → String} (h : LinkedSince p q f refs)
    (hserved : q.Served (linkTargets refs))
    (hname : ∀ d ∈ linkTargets refs, q.isDefault d = true → ∀ t, q.staticOf? d = some t →
      name d = q.memberIdent t) :
    LinkedSince p q (f.renamed (q.linkRenames name refs) 0)
      (distinctLinkage (refs.map (q.relink name))) := by
  refine ⟨?_, ?_⟩
  · intro ident hident hmethod
    -- the reference was renamed, and its entry with it, or both are as they were
    have hentry : ∃ r ∈ refs, (q.relink name r).ident = ident := by
      rcases Fragment.Function.memberIdents_renamed hident with ⟨old, -, hnew⟩ | ⟨hold, hnone⟩
      · obtain ⟨r, hr, d, hd, -, hident⟩ := lookup_linkRenames hnew
        refine ⟨r, hr, ?_⟩
        simp only [relink, hd]
        exact hident
      · obtain ⟨r, hr, rfl⟩ := h.complete ident hold hmethod
        refine ⟨r, hr, ?_⟩
        simp only [relink, linkedDefault_of_lookup hr hnone]
    obtain ⟨r, hr, rfl⟩ := hentry
    exact distinctLinkage_complete (List.mem_map.mpr ⟨r, hr, rfl⟩)
  · intro x hx
    obtain ⟨r, hr, rfl⟩ := List.mem_map.mp (mem_of_mem_distinctLinkage hx)
    cases hd : q.linkedDefault r with
    | none =>
      simp only [relink, hd]
      exact h.origin r hr
    | some d =>
      obtain ⟨htarget, hdefault⟩ := linkedDefault_eq_some.mp hd
      have hmem : d ∈ linkTargets refs := mem_linkTargets.mpr ⟨r, hr, htarget⟩
      obtain ⟨t, ht⟩ := Option.isSome_iff_exists.mp (hserved d hmem hdefault)
      simp only [relink, hd]
      exact .inr ⟨d, t, hdefault, ht, hname d hmem hdefault t ht⟩

/-- With a fresh cache, the identifier that a twin is given is its own. -/
theorem Names.eq_memberIdent {m : MethodRef} (h : Names {} q m ident) (hkeys : q.KeysApart)
    (hm : m.index < q.methods.length) : ident = q.memberIdent m := by
  rcases h with hbase | ⟨k, hk, hkey, hident⟩
  · cases hbase
  · rw [hident, hkeys k m hk hm hkey]
    rfl

/-- Every step keeps fragments linked. -/
theorem Step.linkedSince (hstep : Step (.any {}) q r) (hq : q.Coherent) (hs : q.Spelled)
    (h : AllLinkedSince p q) : AllLinkedSince p r := by
  have hext := hstep.extends hq
  intro m pos f refs hbody
  cases hstep with
  | twin d hd =>
    rcases fragment_withTwin_cases hq.toWired hd hbody with ⟨-, f', hold, rfl⟩ | hsame
    · -- the fragment of the twin has the references of the method's
      obtain ⟨hcomplete, horigin⟩ := (h d pos f' refs hold).extends hq hext
      refine ⟨?_, horigin⟩
      rw [f'.memberIdents_withReceiver]
      exact hcomplete
    · exact (h m pos f refs hsame).extends hq hext
  | forwarder =>
    rcases body_withMethod_cases rfl hbody with ⟨-, hnew⟩ | hsame
    · cases hnew
    · exact (h m pos f refs hsame).extends hq hext
  | code k kpos block hk =>
    rcases body_withBody_cases hk hbody with ⟨-, hnew⟩ | hsame
    · cases hnew
    · exact (h m pos f refs hsame).extends hq hext
  | fragment k kpos f' refs' name hk hserved hname =>
    rcases body_withBody_cases hk hbody with ⟨-, hnew⟩ | hsame
    · cases hnew
      have hkeys := hq.keysApart hs.apart
      refine ((h k pos f' refs' hk).renamed hserved ?_).extends hq hext
      intro d hd hdefault t ht
      exact (hname d hd hdefault t ht).eq_memberIdent hkeys (hq.twin d t hdefault ht).lt
    · exact (h m pos f refs hsame).extends hq hext

theorem Steps.linkedSince (hsteps : Steps (.any {}) q r) (hq : q.Coherent) (hs : q.Spelled)
    (h : AllLinkedSince p q) : AllLinkedSince p r := by
  have hinv := hsteps.induct (P := fun r => r.Spelled ∧ AllLinkedSince p r) hq ⟨hs, h⟩ ?_
  · exact hinv.2.2
  · rintro r₁ r₂ - hr₁ ⟨hs₁, h₁⟩ hstep
    exact ⟨hstep.spelled hr₁ hs₁, hstep.linkedSince hr₁ hs₁ h₁⟩

end

/-! ## Section 3: What identifiers denote in the end -/

/-- The first hit among lists that have grown is the first hit among the lists as they were, if it was
    there. -/
theorem find?_flatMap_append {α τ : Type} {ts : List τ} {f g : τ → List α} {P Q : α → Bool} {a : α}
    (hPQ : ∀ t ∈ ts, ∀ x ∈ f t, P x = Q x) (hg : ∀ t ∈ ts, a ∈ g t → a ∈ f t)
    (h : (ts.flatMap fun t => f t ++ g t).find? P = some a) :
    (ts.flatMap f).find? Q = some a := by
  induction ts with
  | nil => exact h
  | cons t ts ih =>
    rw [List.forall_mem_cons] at hPQ hg
    have hfirst : (f t).find? Q = (f t).find? P := (List.find?_congr hPQ.1).symm
    rw [List.flatMap_cons, List.find?_append, List.find?_append] at h
    rw [List.flatMap_cons, List.find?_append, hfirst]
    cases hold : (f t).find? P with
    | some =>
      rw [hold] at h
      exact h
    | none =>
      rw [hold, Option.none_or] at h
      rw [Option.none_or]
      cases hnew : (g t).find? P with
      | some =>
        -- a new hit that was there before would have been found before
        rw [hnew, Option.some_or, Option.some.injEq] at h
        rw [h] at hnew
        have hmem := hg.1 (List.mem_of_find?_eq_some hnew)
        have hnot := List.find?_eq_none.mp hold a hmem
        exact absurd (List.find?_some hnew) hnot
      | none =>
        rw [hnew, Option.none_or] at h
        exact ih hPQ.2 hg.2 h

/-- What an identifier denotes, if it is an old method, it has denoted before. -/
theorem denoted_of_extends (hp : p.Wired) (hq : q.Wired) (hext : p.Extends q) {k : MethodRef}
    (hk : k.index < p.methods.length) (h : q.denoted ident = some k) :
    p.denoted ident = some k := by
  choose new hnew using hext.type
  have hmethods : q.declaredMethods = p.declared.flatMap fun t => (p.type t).methods ++ new t := by
    rw [declaredMethods, hext.declared]
    simp only [hnew]
  rw [denoted, hmethods] at h
  refine find?_flatMap_append ?_ ?_ h
  · intro t ht m hm
    rw [memberIdent, memberIdent, hext.memberText (hp.member t ht m hm).1]
  · -- an old method stands where it stood, in its own type
    intro t ht hmem
    have hmem' : k ∈ (q.type t).methods := by
      rw [hnew]
      exact List.mem_append_right _ hmem
    obtain ⟨u, -, hu, hku⟩ := hp.owner k hk
    have hu' := (hq.member t (hext.declared ▸ ht) k hmem').2
    rw [hext.enclosing hk, hu, Option.some.injEq] at hu'
    exact hu' ▸ hku

/-- No member reference of a lowered fragment denotes a default method. -/
theorem LinkedSince.denotes (hfresh : p.Fresh) (hnames : p.PlainNames)
    (hsteps : Steps (.any {}) p q) (h : LinkedSince p q f refs)
    (hclean : ∀ d ∈ linkTargets refs, q.isDefault d = false) (hident : ident ∈ f.memberIdents) :
    (q.denoted ident).filter q.isDefault = none := by
  have hcoherent := hfresh.toCoherent
  have hext := hsteps.extends hcoherent
  rw [Option.filter_eq_none_iff]
  intro k hk hdefault
  have hkident := memberIdent_of_denoted hk
  have hmethod : isMethodIdent ident = true := hkident ▸ q.isMethodIdent_memberIdent k
  obtain ⟨r, hr, rfl⟩ := h.complete ident hident hmethod
  rcases h.origin r hr with ⟨k', htarget, hk'⟩ | ⟨d, t, hd, ht, htwin⟩
  · -- the entry has always targeted what the identifier denotes
    have hlt : k.index < p.methods.length := by
      rw [hext.isDefault] at hdefault
      exact lt_of_isDefault hdefault
    have hwas := denoted_of_extends hcoherent.toWired (hsteps.coherent hcoherent).toWired hext hlt hk
    rw [hk', Option.some.injEq] at hwas
    have hnot := hclean k (mem_linkTargets.mpr ⟨r, hr, hwas ▸ htarget⟩)
    rw [hdefault] at hnot
    cases hnot
  · exact hnames.memberIdent_twin hsteps hcoherent hfresh.distinct hd ht hdefault
      (htwin.symm.trans hkident.symm)

/-! ## Section 4: The whole run -/

/-- A lowered program passes the check, where its fragments are linked since loading. -/
theorem IsLowered.checked (h : q.IsLowered) (hfresh : p.Fresh) (hnames : p.PlainNames)
    (hsteps : Steps (.any {}) p q) :
    q.Checked (fun ident => (q.denoted ident).filter q.isDefault) := by
  have hlinked : AllLinkedSince p p := by
    intro m pos f refs hbody
    obtain ⟨hcomplete, htarget, -⟩ := hfresh.linked m pos f refs hbody
    exact ⟨hcomplete, fun r hr => .inl (htarget r hr)⟩
  have hspelled := hnames.spelled hfresh.toWired hfresh.distinct
  refine ⟨fun t _ m _ => h.clean m, ?_, ?_⟩
  · intro t ht m hm pos f refs hbody ident hident
    have hsince := hsteps.linkedSince hfresh.toCoherent hspelled hlinked m pos f refs hbody
    exact hsince.denotes hfresh hnames hsteps (h.clean m _ hbody) hident
  · intro t ht hinterface d hd c hc
    obtain ⟨hmem, hdefault⟩ := List.mem_filter.mp hd
    have hhome : q.home d = t := by
      rw [home, (h.coherent.member t ht d hmem).2]
      rfl
    exact (h.covered d hdefault c (hhome ▸ hc)).2

/-- Where the identifier of a method does not denote a default method, it denotes some other one. -/
theorem Wired.denoted_of_filter (hq : q.Wired) {m : MethodRef} (hm : m.index < q.methods.length)
    (hnone : (q.denoted (q.memberIdent m)).filter q.isDefault = none) :
    ∃ k, q.denoted (q.memberIdent m) = some k ∧ q.isDefault k = false := by
  obtain ⟨k, hk⟩ := exists_denoted (hq.mem_declaredMethods hm)
  rw [hk, Option.filter_eq_none_iff] at hnone
  exact ⟨k, hk, Bool.eq_false_iff.mpr (hnone k rfl)⟩

/-- A fragment of the program has a member reference with the identifier. -/
def Bears (p : Program) (ident : String) : Prop :=
  ∃ m, ∃ b ∈ (p.method m).body, ∃ f ∈ b.fragment?, ident ∈ f.memberIdents

/-- The identifier of a default method is left in a fragment only if another method has it too, is
    declared before and is no default method. -/
theorem Checked.denoted_of_bears (hq : q.Wired)
    (h : q.Checked (fun ident => (q.denoted ident).filter q.isDefault)) {d : MethodRef}
    (hd : q.isDefault d = true) (hbears : q.Bears (q.memberIdent d)) :
    ∃ k, q.denoted (q.memberIdent d) = some k ∧ q.isDefault k = false := by
  obtain ⟨m, b, hbody, f, hf, hmem⟩ := hbears
  cases b with
  | code => cases hf
  | native pos func refs =>
    obtain rfl : func = some f := hf
    obtain ⟨t, ht, -, hm⟩ := hq.owner m (lt_of_body hbody)
    have hnone := h.references t ht m hm pos f refs hbody _ hmem
    exact hq.denoted_of_filter (lt_of_isDefault hd) hnone

/-- A run whose result passes the check reports no error. -/
theorem run_of_verify {cache cache' : NameCache} {summary : Summary}
    (hrun : p.lower cache = ⟨q, cache', .ok summary⟩) (hverify : (q.verify cache').1 = []) :
    (p.run true cache).summary = some summary ∧ (p.run true cache).error = none := by
  rcases hreport : q.verify cache' with ⟨_ | ⟨x, problems⟩, known⟩
  · simp [run, hrun, hreport]
  · rw [hreport] at hverify
    cases hverify

/-- With plain names, the check of what a run leaves finds nothing, with the names that the run
    remembers as well as with none, and so a run that is to check its result succeeds.  In the lowered
    program no method calls a default method or has one in its linkage, no member reference of a
    fragment denotes one, and the classes that implement an interface declare methods for the
    interface's default methods.  The identifier of a default method is left in a fragment only if it
    denotes another method, one that is no default method, and nowhere if parameters have plain types. -/
theorem lower_verified {p q : Program} (hp : p.Loaded) (hnames : p.PlainNames)
    {cache : NameCache} {summary : Summary} (hrun : p.lower {} = ⟨q, cache, .ok summary⟩) :
    (q.verify cache).1 = [] ∧ (q.verify {}).1 = [] ∧
      (p.run true {}).summary = some summary ∧ (p.run true {}).error = none ∧
      q.Checked (fun ident => (q.denoted ident).filter q.isDefault) ∧
      (∀ d, q.isDefault d = true → q.Bears (q.memberIdent d) →
        ∃ k, q.denoted (q.memberIdent d) = some k ∧ q.isDefault k = false) ∧
      (p.PlainTexts → ∀ d, q.isDefault d = true → ¬q.Bears (q.memberIdent d)) := by
  have hfresh := hp.fresh
  have hphases := lower_phases hfresh.toCoherent hrun
  have hsteps := hphases.steps
  have hchecked := hphases.lowered.checked hfresh hnames hsteps
  have hwired := hphases.lowered.coherent.toWired
  have hspelled := hsteps.spelled hfresh.toCoherent (hnames.spelled hfresh.toWired hfresh.distinct)
  have hkeys := hwired.keysApart hspelled.apart
  -- a cache that remembers nothing wrong knows default methods by what identifiers denote
  have hverify : ∀ known : NameCache, known.Faithful q → (q.verify known).1 = [] := by
    intro known hknown
    rw [verify_eq_nil_iff]
    simp only [NameCache.lookup_defaults hwired hkeys hknown]
    exact hchecked
  have hnil := hverify cache (NameCache.Faithful.of_remembers hkeys hphases.remembers)
  obtain ⟨hsummary, herror⟩ := run_of_verify hrun hnil
  have hleft := fun d => hchecked.denoted_of_bears hwired (d := d)
  refine ⟨hnil, hverify {} (NameCache.faithful_empty q), hsummary, herror, hchecked, hleft, ?_⟩
  intro htexts d hd hbears
  obtain ⟨k, hk, hnot⟩ := hleft d hd hbears
  -- plain texts give each method an identifier of its own
  have hkd : k = d := hphases.eq_of_memberIdent hfresh htexts (List.mem_of_find?_eq_some hk)
    (hwired.mem_declaredMethods (lt_of_isDefault hd)) (memberIdent_of_denoted hk)
  rw [hkd, hd] at hnot
  cases hnot

theorem greeting_plainNames : greetingProgram.PlainNames where
  types := by decide +kernel
  methods := by decide +kernel

theorem greeting_plainTexts : greetingProgram.PlainTexts := by
  have hparams : ∀ m ∈ greetingProgram.declaredMethods, ∀ x ∈ (greetingProgram.method m).params,
      x.type.toList ≠ [] ∧ x.type.toList.all isTypeNameChar = true := by decide +kernel
  refine ⟨greeting_plainNames, by decide +kernel, fun m hm x hx => ?_⟩
  exact .name (hparams m hm x hx).1 (hparams m hm x hx).2

theorem lower_verified_greeting : ∃ q cache summary, greetingProgram.Loaded ∧
    greetingProgram.PlainNames ∧ greetingProgram.lower {} = ⟨q, cache, .ok summary⟩ ∧
      (q.verify cache).1 = [] ∧ (greetingProgram.run true {}).error = none ∧
        ∀ d, q.isDefault d = true → ¬q.Bears (q.memberIdent d) := by
  obtain ⟨q, cache, summary, hrun, -, -⟩ := greeting_lowers
  obtain ⟨hnil, -, -, herror, -, -, hnone⟩ :=
    lower_verified greeting_loaded greeting_plainNames hrun
  exact ⟨q, cache, summary, greeting_loaded, greeting_plainNames, hrun, hnil, herror,
    hnone greeting_plainTexts⟩

/-! ## Section 5: An identifier that is left -/

/-- A default method whose parameter has a type that reads like two, behind a method with these two. -/
def sharing : Description where
  version := "1.0"
  types := [
    { name := "T"
      kind := "interface"
      methods := [
        { name := "m"
          abstract := true
          params := [{ name := "p", type := "x" }, { name := "q", type := "y" }]
          returns := "String" },
        { name := "m"
          params := [{ name := "p", type := "x;Ly" }]
          returns := "String"
          body := .stmts 8 [.ret 9 (.record 9 (some "\"a\"") "" "" .absent [])] }] },
    { name := "U"
      methods := [
        { name := "use"
          params := [{ name := "t", type := "T" }]
          returns := "Object"
          native := some "return t.@T::m(Lx;Ly;)(1, 2);" }] }]

/-- The fragment uses the first of the two methods, under the identifier that both have. -/
theorem lower_shared : ∃ q cache summary, (ofDescription sharing).Loaded ∧
    (ofDescription sharing).PlainNames ∧
      (ofDescription sharing).lower {} = ⟨q, cache, .ok summary⟩ ∧ (q.verify cache).1 = [] ∧
        ∃ d, q.isDefault d = true ∧ q.Bears (q.memberIdent d) := by
  have hok : ((ofDescription sharing).lower {}).outcome.isOk = true := by decide +kernel
  obtain ⟨summary, hrun⟩ := lower_of_isOk hok
  have hnames : (ofDescription sharing).PlainNames := ⟨by decide +kernel, by decide +kernel⟩
  exact ⟨_, _, summary, loaded_ofDescription (by decide +kernel), hnames, hrun, by decide +kernel,
    ⟨1⟩, by decide +kernel, ⟨2⟩, by decide +kernel⟩

end DefaultLowering.Program
