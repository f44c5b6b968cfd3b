import DefaultLowering.Conformance.Verdict
import Mathlib.Data.List.Infix

/-!
# What a verdict says

A case passes exactly if what its program comes to is what it expects.

- `Case.ComesTo`: what loading and lowering the program of a case comes to;
- `Expectation.Met`: the expectation is met by an outcome, said without the differences that are
  reported;
- `keyDifferences_eq_nil`: lists of keys have no differences exactly if they are equal;
- `Case.run_success_iff`: a case passes exactly if its expectation is met.
-/

namespace DefaultLowering.Conformance

/-! ## Section 1: Outcomes and expectations -/

/-- What loading and lowering the program of a case comes to: the error that one of them ends with, or
    the twins and the forwarders in the order of their making and the text of the lowered program. -/
inductive Case.ComesTo (c : Case) (name : String) (cache : NameCache) : Outcome → Prop where
  | unloaded {e : Description.LoadError}
      (hload : Description.loadText (name ++ "/" ++ programName) c.program = .error e) :
      ComesTo c name cache (.failed (e.message (name ++ "/" ++ programName)))
  | unlowered {p : Program} {e : RunError}
      (hload : Description.loadText (name ++ "/" ++ programName) c.program = .ok p)
      (herror : (p.run true cache).error = some e) : ComesTo c name cache (.failed e.message)
  | lowered {p q : Program} {s : Summary}
      (hload : Description.loadText (name ++ "/" ++ programName) c.program = .ok p)
      (herror : (p.run true cache).error = none) (hsummary : (p.run true cache).summary = some s)
      (hprogram : (p.run true cache).program = q) :
      ComesTo c name cache (.lowered (s.twins.map q.keyText) (s.forwarders.map q.keyText) q.text)

/-- The outcome is the expected one: an error that holds the expected text, if one is expected; else no
    error, the expected twins and forwarders, and a text in which everything occurs that should, and
    nothing that should not. -/
inductive Expectation.Met (e : Expectation) : Outcome → Prop where
  | failed {error : String} (hexpected : e.error ≠ "") (hoccurs : e.error.toList <:+: error.toList) :
      Met e (.failed error)
  | lowered {twins forwarders : List String} {text : String} (hnone : e.error = "")
      (htwins : twins = e.twins) (hforwarders : forwarders = e.forwarders)
      (hcontains : ∀ part ∈ e.contains, part.toList <:+: text.toList)
      (hlacks : ∀ part ∈ e.notContains, ¬ part.toList <:+: text.toList) :
      Met e (.lowered twins forwarders text)

/-! ## Section 2: Differences -/

theorem occursIn_iff (part whole : List Char) : Text.occursIn part whole = true ↔ part <:+: whole := by
  induction whole with
  | nil => rw [Text.occursIn, List.isEmpty_iff, List.infix_nil]
  | cons c cs ih =>
    rw [Text.occursIn, Bool.or_eq_true, List.isPrefixOf_iff_prefix, ih, List.infix_cons_iff]

theorem isInfix_iff (part whole : String) :
    Text.isInfix part whole = true ↔ part.toList <:+: whole.toList :=
  occursIn_iff part.toList whole.toList

theorem sortedKeys_eq_nil {keys : List String} : sortedKeys keys = [] ↔ keys = [] := by
  rw [← List.length_eq_zero_iff, sortedKeys, List.length_mergeSort, List.length_eq_zero_iff]

theorem filter_not_contains_self (keys : List String) :
    (keys.filter fun k => !keys.contains k) = [] := by
  rw [List.filter_eq_nil_iff]
  intro k hk
  simp [hk]

/-- Lists that differ have differences, also if they differ only in their order or in how often a key
    occurs. -/
theorem keyDifferences_eq_nil {what : String} {expected actual : List String} :
    keyDifferences what expected actual = [] ↔ expected = actual := by
  unfold keyDifferences
  dsimp only
  constructor
  · intro h
    by_contra hne
    split at h
    · -- the order is reported
      cases h
    · rename_i hquiet
      rw [h, List.isEmpty_nil, Bool.true_and, bne_iff_ne, not_not] at hquiet
      exact hne hquiet
  · rintro rfl
    rw [bne_self_eq_false, Bool.and_false, if_neg Bool.false_ne_true, filter_not_contains_self,
      sortedKeys_eq_nil.mpr rfl, List.map_nil, List.map_nil, List.append_nil]

theorem differences_eq_nil {e : Expectation} {twins forwarders : List String} {text : String} :
    differences e twins forwarders text = [] ↔ e.twins = twins ∧ e.forwarders = forwarders ∧
      (∀ part ∈ e.contains, part.toList <:+: text.toList) ∧
      ∀ part ∈ e.notContains, ¬ part.toList <:+: text.toList := by
  unfold differences
  simp only [List.append_eq_nil_iff, keyDifferences_eq_nil, List.map_eq_nil_iff,
    List.filter_eq_nil_iff, Bool.not_eq_true', Bool.not_eq_false, isInfix_iff, and_assoc]

/-! ## Section 3: Verdicts -/

theorem judge_success_iff (e : Expectation) (outcome : Outcome) :
    (judge e outcome).success = true ↔ e.Met outcome := by
  cases outcome with
  | failed error =>
    rw [judge]
    split
    · rename_i hempty
      refine iff_of_false Bool.false_ne_true ?_
      rintro ⟨hexpected, -⟩
      exact hexpected (String.isEmpty_iff.mp hempty)
    split
    · rename_i hempty hinfix
      have hexpected : e.error ≠ "" := fun hnone => hempty (String.isEmpty_iff.mpr hnone)
      exact iff_of_true rfl (.failed hexpected ((isInfix_iff _ _).mp hinfix))
    · rename_i hinfix
      refine iff_of_false Bool.false_ne_true ?_
      rintro ⟨-, hoccurs⟩
      exact hinfix ((isInfix_iff _ _).mpr hoccurs)
  | lowered twins forwarders text =>
    rw [judge]
    by_cases hnone : e.error = ""
    · rw [String.isEmpty_iff.mpr hnone, Bool.not_true, if_neg Bool.false_ne_true]
      split
      · rename_i hnil
        obtain ⟨htwins, hforwarders, hcontains, hlacks⟩ := differences_eq_nil.mp hnil
        exact iff_of_true rfl (.lowered hnone htwins.symm hforwarders.symm hcontains hlacks)
      · rename_i hnil
        refine iff_of_false Bool.false_ne_true ?_
        intro hmet
        cases hmet with
        | lowered _ htwins hforwarders hcontains hlacks =>
          exact hnil (differences_eq_nil.mpr ⟨htwins.symm, hforwarders.symm, hcontains, hlacks⟩)
    · have hexpected : (!e.error.isEmpty) = true := by
        rw [Bool.not_eq_true', Bool.eq_false_iff]
        exact fun hempty => hnone (String.isEmpty_iff.mp hempty)
      rw [if_pos hexpected]
      refine iff_of_false Bool.false_ne_true ?_
      intro hmet
      cases hmet with
      | lowered hempty => exact hnone hempty

/-- A run without error has a summary. -/
theorem summary_of_run {p : Program} {check : Bool} {cache : NameCache}
    (h : (p.run check cache).error = none) : ∃ s, (p.run check cache).summary = some s := by
  unfold Program.run at h ⊢
  dsimp only at h ⊢
  cases houtcome : (p.lower cache).outcome with
  | error =>
    rw [houtcome] at h
    cases h
  | ok s =>
    dsimp only
    refine ⟨s, ?_⟩
    split
    · rfl
    · split <;> rfl

theorem Case.comesTo_outcome (c : Case) (name : String) (cache : NameCache) :
    c.ComesTo name cache (c.outcome name cache).1 := by
  unfold Case.outcome
  dsimp only
  split
  · rename_i e hload
    exact .unloaded hload
  · rename_i p hload
    split
    · rename_i e _ herror
      exact .unlowered hload herror
    · rename_i herror hsummary
      obtain ⟨s, hs⟩ := summary_of_run herror
      rw [hsummary] at hs
      cases hs
    · rename_i s herror hsummary
      exact .lowered hload herror hsummary rfl

theorem Case.ComesTo.eq_outcome {c : Case} {name : String} {cache : NameCache} {outcome : Outcome}
    (h : c.ComesTo name cache outcome) : outcome = (c.outcome name cache).1 := by
  unfold Case.outcome
  cases h with
  | unloaded hload => simp only [hload]
  | unlowered hload herror => simp only [hload, herror]
  | lowered hload herror hsummary hprogram => simp only [hload, herror, hsummary, hprogram]

theorem Case.outcome_congr {c d : Case} (h : c.program = d.program) (name : String) (cache : NameCache) :
    c.outcome name cache = d.outcome name cache := by
  unfold Case.outcome
  rw [h]

/-- A case with a program can be run, and it passes exactly if what the program comes to is what the case
    expects.  This holds whatever the outcome, and in particular two lists of keys that are told to be
    the same are the same, down to the order and to how often a key occurs. -/
theorem Case.run_success_iff (c : Case) (name : String) (cache : NameCache) (h : c.program ≠ "") :
    (∃ outcome verdict cache', c.ComesTo name cache outcome ∧
      (∀ other, c.ComesTo name cache other → other = outcome) ∧
      c.run name cache = some (verdict, cache') ∧
      (verdict.success = true ↔ c.expected.Met outcome)) ∧
    (∀ outcome, (judge c.expected outcome).success = true ↔ c.expected.Met outcome) ∧
    ∀ what expected actual, keyDifferences what expected actual = [] ↔ expected = actual := by
  refine ⟨⟨(c.outcome name cache).1, judge c.expected (c.outcome name cache).1,
    (c.outcome name cache).2, c.comesTo_outcome name cache, fun other hother => hother.eq_outcome, ?_,
    judge_success_iff _ _⟩, judge_success_iff c.expected, fun _ _ _ => keyDifferences_eq_nil⟩
  have hempty : ¬ c.program.isEmpty = true := fun hempty => h (String.isEmpty_iff.mp hempty)
  rw [Case.run, if_neg hempty]

/-- A default method that a class inherits. -/
def inherited : Case where
  comment := ""
  program := "version: \"1.0\"\ntypes:\n- \x7bname: G, kind: interface, methods: [\x7bname: g, body: " ++
    "[return: ]\x7d]\x7d\n- \x7bname: A, implements: [G]\x7d\n"
  expected := { twins := ["G.g$static(G)"], forwarders := ["A.g()"] }

/-- The same, but with the forwarder expected twice. -/
def repeated : Case := { inherited with expected.forwarders := ["A.g()", "A.g()"] }

/-- The first case passes, and the second, in which no key is missing or unexpected, does not. -/
theorem run_success_iff_inherited :
    (∃ outcome verdict cache, inherited.program ≠ "" ∧ inherited.ComesTo "c" {} outcome ∧
      inherited.run "c" {} = some (verdict, cache) ∧ verdict.success = true ∧
      inherited.expected.Met outcome) ∧
    ∃ outcome verdict cache, repeated.program ≠ "" ∧ repeated.ComesTo "c" {} outcome ∧
      repeated.run "c" {} = some (verdict, cache) ∧ verdict.success = false ∧
      ¬ repeated.expected.Met outcome := by
  have hne : inherited.program ≠ "" := by decide
  have hne' : repeated.program ≠ "" := by decide
  have hprogram : repeated.program = inherited.program := rfl
  have hverdicts : (judge inherited.expected (inherited.outcome "c" {}).1).success = true ∧
      (judge repeated.expected (inherited.outcome "c" {}).1).success = false := by decide +kernel
  obtain ⟨⟨outcome, verdict, cache, hcomes, -, hrun, hiff⟩, hjudge, -⟩ :=
    inherited.run_success_iff "c" {} hne
  obtain ⟨⟨outcome', verdict', cache', hcomes', -, hrun', hiff'⟩, hjudge', -⟩ :=
    repeated.run_success_iff "c" {} hne'
  have hmet : inherited.expected.Met outcome := by
    rw [← hjudge, hcomes.eq_outcome]
    exact hverdicts.1
  have hunmet : ¬ repeated.expected.Met outcome' := by
    rw [← hjudge', hcomes'.eq_outcome, Case.outcome_congr hprogram, hverdicts.2]
    exact Bool.false_ne_true
  exact ⟨⟨outcome, verdict, cache, hne, hcomes, hrun, hiff.mpr hmet, hmet⟩,
    outcome', verdict', cache', hne', hcomes', hrun',
    Bool.eq_false_iff.mpr fun hsuccess => hunmet (hiff'.mp hsuccess), hunmet⟩

end DefaultLowering.Conformance
