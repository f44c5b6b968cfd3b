import DefaultLowering.Proofs.FreeNames
import DefaultLowering.Proofs.Relinking
import DefaultLowering.Proofs.Statistics

/-!
# Names stay in the reach of their declarations

A resolved name carries the number of scopes to go outward to the one that declares it.  Lowering
changes both sides: trees move into other positions and to other methods, parameters and identifiers are
declared that were not there when the fragment was read, and the root is shared by all fragments.  Still
every resolved name is found where it says, and no scope declares anything twice.

- `Mention.InScope`, `Scoped`: the invariant, for the items of a tree in the scopes around it;
- `Scoped.mono`: scopes may grow;
- `scoped_of_settles`: it holds of what has been read;
- `Function.scoped_withReceiver`: it holds with a receiver;
- `Function.scoped_renamed`: it holds after renaming, in the scopes that renaming has changed;
- `Program.Scoped`: the invariant of programs, kept by every step (`Step.scoped`);
- `lower_scoped`: it holds before and after every run.
-/

namespace DefaultLowering

namespace Fragment

/-! ## Section 1: Names in scope -/

/-- A resolved name is declared by the scope that it points to, which is one of the scopes around it. -/
def Mention.InScope (m : Mention) (scopes : Scopes) : Prop :=
  ∀ n, m.level = some n → ∃ names, scopes[n]? = some names ∧ m.ident ∈ names

/-- All names at any depth of the items, which stand in the scopes `around`, are in scope, and no
    function scope in them declares a name twice. -/
structure Scoped (around : Scopes) (items : List Item) : Prop where
  mention : ∀ i ∈ items, ∀ m scopes, Within around i (.mention m) scopes → m.InScope scopes
  literal : ∀ i ∈ items, ∀ g scopes, Within around i (.literal g) scopes → g.names.Nodup

section

variable {around around' : Scopes} {items items' : List Item}

theorem scoped_nil : Scoped around [] := ⟨List.forall_mem_nil _, List.forall_mem_nil _⟩

@[simp] theorem scoped_append : Scoped around (items ++ items') ↔
    Scoped around items ∧ Scoped around items' := by
  constructor
  · intro h
    exact ⟨⟨fun i hi => h.mention i (List.mem_append_left _ hi),
      fun i hi => h.literal i (List.mem_append_left _ hi)⟩,
      ⟨fun i hi => h.mention i (List.mem_append_right _ hi),
      fun i hi => h.literal i (List.mem_append_right _ hi)⟩⟩
  · rintro ⟨h, h'⟩
    exact ⟨fun i hi => (List.mem_append.mp hi).elim (h.mention i) (h'.mention i),
      fun i hi => (List.mem_append.mp hi).elim (h.literal i) (h'.literal i)⟩

@[simp] theorem scoped_mention {m : Mention} : Scoped around (.mention m :: items) ↔
    m.InScope around ∧ Scoped around items := by
  rw [← List.singleton_append, scoped_append]
  refine and_congr_left fun _ => ⟨?_, ?_⟩
  · intro h
    exact h.mention _ (List.mem_singleton_self _) m around .here
  · intro hm
    refine ⟨?_, ?_⟩
    · intro i hi m' scopes hwithin
      rw [List.mem_singleton.mp hi] at hwithin
      cases hwithin
      exact hm
    · intro i hi g scopes hwithin
      rw [List.mem_singleton.mp hi] at hwithin
      cases hwithin

/-- A function literal puts its own scope around its body. -/
theorem scoped_literal {f : Function} : Scoped around [.literal f] ↔
    f.names.Nodup ∧ Scoped (f.names :: around) f.body.items := by
  have hself := List.mem_singleton_self (Item.literal f)
  constructor
  · intro h
    exact ⟨h.literal _ hself f around .here,
      fun i hi m scopes hwithin => h.mention _ hself m scopes (.inside hi hwithin),
      fun i hi g scopes hwithin => h.literal _ hself g scopes (.inside hi hwithin)⟩
  · rintro ⟨hnodup, h⟩
    refine ⟨?_, ?_⟩
    · intro i hi m scopes hwithin
      rw [List.mem_singleton.mp hi] at hwithin
      cases hwithin with
      | inside hj hwithin => exact h.mention _ hj m scopes hwithin
    · intro i hi g scopes hwithin
      rw [List.mem_singleton.mp hi] at hwithin
      cases hwithin with
      | here => exact hnodup
      | inside hj hwithin => exact h.literal _ hj g scopes hwithin

/-! ## Section 2: Scopes that grow -/

/-- Every scope declares at least what it did. -/
def Grown (around around' : Scopes) : Prop := List.Forall₂ (· ⊆ ·) around around'

theorem Grown.refl (around : Scopes) : Grown around around :=
  List.forall₂_same.mpr fun _ _ => List.Subset.refl _

theorem Grown.trans {around'' : Scopes} (h : Grown around around')
    (h' : Grown around' around'') : Grown around around'' := by
  unfold Grown at *
  induction h generalizing around'' with
  | nil => exact h'
  | cons hnames _ ih =>
    cases h' with
    | cons hnames' h' => exact .cons (List.Subset.trans hnames hnames') (ih h')

theorem Mention.InScope.mono {m : Mention} (h : m.InScope around) (hgrown : Grown around around') :
    m.InScope around' := by
  intro n hn
  obtain ⟨names, hnames, hmem⟩ := h n hn
  have hlt : n < around.length := (List.getElem?_eq_some_iff.mp hnames).1
  have hlt' : n < around'.length := hgrown.length_eq ▸ hlt
  have hsub : around[n] ⊆ around'[n] := List.forall₂_iff_get.mp hgrown |>.2 n hlt hlt'
  rw [List.getElem?_eq_getElem hlt, Option.some.injEq] at hnames
  exact ⟨around'[n], List.getElem?_eq_getElem hlt', hsub (hnames ▸ hmem)⟩

/-- The scopes around a place grow with those around the tree. -/
theorem Within.mono {i j : Item} {scopes' : Scopes} (h : Within around' i j scopes')
    (hgrown : Grown around around') : ∃ scopes, Within around i j scopes ∧ Grown scopes scopes' := by
  induction h generalizing around with
  | here => exact ⟨around, .here, hgrown⟩
  | inside hi _ ih =>
    obtain ⟨scopes, hwithin, hscopes⟩ := ih (.cons (List.Subset.refl _) hgrown)
    exact ⟨scopes, .inside hi hwithin, hscopes⟩

/-- What is in scope stays so while scopes grow. -/
theorem Scoped.mono (h : Scoped around items) (hgrown : Grown around around') :
    Scoped around' items := by
  refine ⟨?_, ?_⟩
  · intro i hi m scopes' hwithin
    obtain ⟨scopes, hwithin, hscopes⟩ := hwithin.mono hgrown
    exact (h.mention i hi m scopes hwithin).mono hscopes
  · intro i hi g scopes' hwithin
    obtain ⟨scopes, hwithin, -⟩ := hwithin.mono hgrown
    exact h.literal i hi g scopes hwithin

end

/-! ## Section 3: Fragments that have been read -/

/-- Scopes further out make no difference to what stands where. -/
theorem Within.of_append {around outer scopes' : Scopes} {i j : Item}
    (h : Within (around ++ outer) i j scopes') :
    ∃ scopes, Within around i j scopes ∧ scopes' = scopes ++ outer := by
  generalize hall : around ++ outer = all at h
  induction h generalizing around with
  | here => exact ⟨around, .here, hall.symm⟩
  | @inside _ f _ _ _ hi _ ih =>
    have hinner : f.names :: around ++ outer = f.names :: _ := congrArg (List.cons _) hall
    obtain ⟨scopes, hwithin, hscopes⟩ := ih hinner
    exact ⟨scopes, .inside hi hwithin, hscopes⟩

/-- Resolving puts names in scope, where the root declares what it has been left. -/
theorem scoped_of_settles {around : Scopes} {items : List Item}
    {names names' : List String} (h : Settles around items names names') :
    Scoped (around ++ [names']) items := by
  refine ⟨?_, ?_⟩
  · intro i hi m scopes' hwithin' n hn
    obtain ⟨scopes, hwithin, rfl⟩ := hwithin'.of_append
    have hresolved := h.resolved i hi m scopes hwithin
    by_cases hlexical : m.IsLexical
    · rw [hresolved.lexical hlexical, Option.some.injEq] at hn
      subst hn
      -- a name that no function scope declares is one of those that the root has been given
      refine (nearest_levelOf fun hfree => ?_).1
      exact (h.root m.ident).mpr (.inr ⟨i, hi, m, scopes, hwithin, ⟨hlexical, hfree⟩, rfl⟩)
    · rw [hresolved.other hlexical] at hn
      cases hn
  · intro i hi g scopes' hwithin
    obtain ⟨scopes, hwithin, -⟩ := hwithin.of_append
    exact (h.declaring i hi g scopes hwithin).nodup

/-- The names that a root gains are new. -/
theorem Gained.nodup {source : String} {chain chain' : Chain} {f : Function}
    (h : Gained source chain f chain') (hnodup : chain.root.names.Nodup) :
    chain'.root.names.Nodup := by
  rw [h.root, List.nodup_append']
  refine ⟨hnodup, Description.nodup_eraseDups _, ?_⟩
  intro x hx hnew
  rw [List.mem_eraseDups, List.mem_map] at hnew
  obtain ⟨u, hu, rfl⟩ := hnew
  have hfree : u.IsFree (chain.fromRoot.map Scope.names) := by simpa using (List.mem_filter.mp hu).2
  cases u with
  | word => exact hfree
  | reference =>
    refine hfree chain.root.names (List.mem_append_right _ ?_) hx
    exact List.mem_map_of_mem List.mem_cons_self

/-! ## Section 4: The receiver -/

section

variable {around : Scopes} {names : List String}

/-- Where the innermost scope declares the receiver, it can be read. -/
theorem Part.scoped_readingReceiver (hnames : receiverParam ∈ names) (a : Part)
    (h : Scoped (names :: around) a.items) : Scoped (names :: around) a.readingReceiver.items := by
  induction a using Part.induct with
  | this =>
    refine scoped_mention.mpr ⟨?_, scoped_nil⟩
    intro n hn
    cases hn
    exact ⟨names, rfl, hnames⟩
  | invoke ident q level xs ihq ihxs =>
    obtain ⟨hident, hparts⟩ := scoped_mention.mp h
    obtain ⟨hq, hxs⟩ := scoped_append.mp hparts
    exact scoped_mention.mpr ⟨hident, scoped_append.mpr ⟨ihq hq, ihxs hxs⟩⟩
  | name ident q level ih =>
    obtain ⟨hident, hq⟩ := scoped_mention.mp h
    exact scoped_mention.mpr ⟨hident, ih hq⟩
  | _ =>
    simp_all [Part.items, Part.readingReceiver, Expr.readingReceiver, argsReadingReceiver,
      Stmt.readingReceiver, stmtsReadingReceiver, Decl.readingReceiver, Expr.items, argsItems, Stmt.items,
      stmtsItems, declsItems, scoped_append]

end

/-! ## Section 5: Declaring -/

theorem mem_declare (ident : String) (names : List String) : ident ∈ declare ident names := by
  unfold declare
  split
  · assumption
  · exact List.mem_append_right _ (List.mem_singleton_self _)

theorem subset_declare (ident : String) (names : List String) : names ⊆ declare ident names := by
  unfold declare
  split
  · exact List.Subset.refl _
  · exact List.subset_append_left _ _

theorem nodup_declare {ident : String} {names : List String} (h : names.Nodup) :
    (declare ident names).Nodup := by
  unfold declare
  split
  · exact h
  · next hnew => exact List.nodup_append'.mpr ⟨h, List.nodup_singleton _, by simpa using hnew⟩

/-- A receiver is declared once, also where a variable had its name. -/
theorem Function.scoped_withReceiver {around : Scopes} {f : Function}
    (h : Scoped around [.literal f]) : Scoped around [.literal f.withReceiver] := by
  obtain ⟨name, params, names, body⟩ := f
  obtain ⟨hnodup, hbody⟩ := scoped_literal.mp h
  have hgrown : Grown (names :: around) (declare receiverParam names :: around) :=
    .cons (subset_declare _ _) (Grown.refl around)
  refine scoped_literal.mpr ⟨nodup_declare hnodup, ?_⟩
  exact (Part.stmt body).scoped_readingReceiver (mem_declare _ _) (hbody.mono hgrown)

/-! ## Section 6: Renaming -/

namespace Change

/-- What the scopes around a tree declare after the change. -/
def around (scopes : Scopes) : Change → Scopes
  | invocation (some level) ident => scopes.modify level (declare ident)
  | _ => scopes

theorem grown_around (c : Change) (scopes : Scopes) : Grown scopes (c.around scopes) := by
  rcases c with _ | ⟨_ | level, ident⟩
  · exact .refl scopes
  · exact .refl scopes
  · refine List.forall₂_iff_get.mpr ⟨(List.length_modify ..).symm, ?_⟩
    intro i hi hi'
    simp only [around, List.get_eq_getElem, List.getElem_modify]
    -- the scope at the level, or another one
    split
    · exact subset_declare _ _
    · exact List.Subset.refl _

theorem grown_foldl_around (cs : List Change) (scopes : Scopes) :
    Grown scopes (cs.foldl around scopes) := by
  induction cs generalizing scopes with
  | nil => exact .refl scopes
  | cons c cs ih => exact (c.grown_around scopes).trans (ih _)

/-- A change is made to the innermost scope or to those around it. -/
theorem foldl_around_cons (cs : List Change) (names : List String) (scopes : Scopes) :
    cs.foldl around (names :: scopes) =
      cs.foldl inner names :: (cs.map outward).foldl around scopes := by
  induction cs generalizing names scopes with
  | nil => rfl
  | cons c cs ih =>
    -- level 0 is the innermost scope, and for those around it every level is one less
    have hstep : around (names :: scopes) c = inner names c :: around scopes c.outward := by
      rcases c with _ | ⟨_ | _ | level, ident⟩ <;> rfl
    rw [List.foldl_cons, hstep, ih, List.map_cons, List.foldl_cons, List.foldl_cons]

theorem nodup_foldl_inner (cs : List Change) {names : List String} (h : names.Nodup) :
    (cs.foldl inner names).Nodup := by
  refine List.foldlRecOn (motive := List.Nodup) cs _ h ?_
  intro names h c _
  rcases c with _ | ⟨_ | _ | level, ident⟩
  · exact h
  · exact h
  · exact nodup_declare h
  · exact h

end Change

section

variable (renames : Renames)

/-- The scope to which an invocation belongs is one of those around it. -/
theorem Expr.rootLevel_lt {own n : Nat} {around : Scopes} (hown : own < around.length)
    (q : Expr) (h : Scoped around q.items) (hn : q.rootLevel renames own = some n) :
    n < around.length := by
  cases q with
  | this =>
    cases hn
    exact hown
  | name ident q =>
    simp only [Expr.items, scoped_mention] at h
    simp only [Expr.rootLevel] at hn
    split at hn
    · cases hn
    · obtain ⟨names, hnames, -⟩ := h.1 n hn
      exact (List.getElem?_eq_some_iff.mp hnames).1
    · exact q.rootLevel_lt hown h.2 hn
  | _ => cases hn

/-- A new identifier is in scope once it has been declared. -/
theorem inScope_invocation {level : Option Nat} {around : Scopes} (new : String)
    (h : ∀ n, level = some n → n < around.length) :
    (⟨new, .absent, level⟩ : Mention).InScope ((Change.invocation level new).around around) := by
  intro n hn
  have hlt := h n hn
  refine ⟨declare new around[n], ?_, mem_declare _ _⟩
  rw [show level = some n from hn, Change.around, List.getElem?_modify_eq,
    List.getElem?_eq_getElem hlt]
  rfl

/-- Items that are in scope become others that are so, in the scopes that some changes leave. -/
def KeepsScoped (own : Nat) (cs : List Change) (items items' : List Item) : Prop :=
  ∀ around : Scopes, own < around.length → Scoped around items →
    Scoped (cs.foldl Change.around around) items'

namespace KeepsScoped

variable {own : Nat} {cs cs' : List Change} {items items' new new' : List Item}

theorem nil : KeepsScoped own [] [] [] := fun _ _ _ => scoped_nil

/-- Scopes grow from one part to the next. -/
theorem append (h : KeepsScoped own cs items new) (h' : KeepsScoped own cs' items' new') :
    KeepsScoped own (cs ++ cs') (items ++ items') (new ++ new') := by
  intro around hown hitems
  rw [scoped_append] at hitems
  rw [List.foldl_append, scoped_append]
  have hgrown := Change.grown_foldl_around cs around
  refine ⟨(h around hown hitems.1).mono (Change.grown_foldl_around cs' _), ?_⟩
  exact h' _ (hgrown.length_eq ▸ hown) (hitems.2.mono hgrown)

/-- A name that is kept, with its qualifier. -/
theorem name {m m' : Mention} (hident : m'.ident = m.ident) (hlevel : m'.level = m.level)
    (h : KeepsScoped own cs items new) :
    KeepsScoped own cs (.mention m :: items) (.mention m' :: new) := by
  intro around hown hitems
  rw [scoped_mention] at hitems ⊢
  refine ⟨?_, h around hown hitems.2⟩
  intro n hn
  rw [hlevel] at hn
  rw [hident]
  exact hitems.1.mono (Change.grown_foldl_around cs around) n hn

end KeepsScoped

/-- The part keeps its names in scope.  What is declared in the scope of a function literal stays there, and
    the rest goes outward. -/
def Part.KeepsScoped (own : Nat) : Part → Prop
  | .function f => Fragment.KeepsScoped own ((f.changes renames (own + 1)).map Change.outward) [.literal f]
      [.literal (f.renamed renames (own + 1))]
  | a => Fragment.KeepsScoped own (a.changes renames own) a.items (a.renamed renames own).items

/-- A tree that is in scope is so after renaming, in the scopes that renaming leaves. -/
theorem Part.keepsScoped (own : Nat) (a : Part) : a.KeepsScoped renames own := by
  induction a using Part.induct generalizing own with
  | absent | this | literal | noArgs | absentStmt | noStmts | noDecls => exact Fragment.KeepsScoped.nil
  | name ident q level ih =>
    simp only [Part.KeepsScoped, Part.changes, Part.renamed, Expr.changes, nameChanges, Expr.renamed]
    cases renames.lookup ident with
    | some =>
      -- a reference that is not called is left unresolved
      intro around _ _
      refine scoped_mention.mpr ⟨?_, scoped_nil⟩
      intro n hn
      cases hn
    | none =>
      rw [List.append_nil]
      exact .name rfl rfl (ih own)
  | invoke ident q level xs ihq ihxs =>
    have hparts := (ihq own).append (ihxs own)
    simp only [Part.KeepsScoped, Part.changes, Part.renamed, Expr.changes, callChanges, Expr.renamed]
    cases renames.lookup ident with
    | some new =>
      -- the callee is declared last, in a scope that was there before
      intro around hown h
      rw [Part.items, Expr.items, Expr.items, List.cons_append, scoped_mention] at h
      have hgrown := Change.grown_foldl_around
        (q.changes renames own ++ argsChanges renames own xs) around
      have hlevel : ∀ n, q.rootLevel renames own = some n → n < _ := fun n hn =>
        hgrown.length_eq ▸ q.rootLevel_lt renames hown (scoped_append.mp h.2).1 hn
      rw [List.foldl_append]
      exact scoped_mention.mpr ⟨inScope_invocation new hlevel,
        (hparts around hown h.2).mono (Change.grown_around _ _)⟩
    | none =>
      rw [List.append_nil]
      exact .name rfl rfl hparts
  | call x xs hx ihx ihxs =>
    simp only [Part.KeepsScoped, Part.changes, Part.renamed, Expr.changes_call hx, Expr.renamed_call hx]
    exact (ihx own).append (ihxs own)
  | binary _ _ _ ih ih' | moreArgs _ _ ih ih' | moreStmts _ _ ih ih' | moreDecls _ _ _ ih ih' =>
    exact (ih own).append (ih' own)
  | unary _ _ ih | func _ ih | block _ ih | exprStmt _ ih | ret _ ih | var _ ih => exact ih own
  | cond x s t ihx ihs iht => exact (ihx own).append ((ihs own).append (iht own))
  | function name params names body ih =>
    intro around hown h
    obtain ⟨hnodup, hbody⟩ := scoped_literal.mp h
    have hrenamed := ih (own + 1) (names :: around) (Nat.succ_lt_succ hown) hbody
    rw [Change.foldl_around_cons] at hrenamed
    exact scoped_literal.mpr ⟨Change.nodup_foldl_inner _ hnodup, hrenamed⟩

/-- A function that stands in the root is in scope after renaming, in the root that renaming leaves. -/
theorem Function.scoped_renamed_root {globals : List String} {f : Function}
    (h : Scoped [globals] [.literal f]) :
    Scoped [f.globalsRenamed renames globals] [.literal (f.renamed renames 0)] := by
  obtain ⟨name, params, names, body⟩ := f
  obtain ⟨hnodup, hbody⟩ := scoped_literal.mp h
  have hrenamed := (Part.stmt body).keepsScoped renames 0 [names, globals] Nat.zero_lt_two hbody
  have hnone : ∀ cs : List Change, cs.foldl Change.around [] = [] := by
    intro cs
    exact List.length_eq_zero_iff.mp (Change.grown_foldl_around cs []).length_eq.symm
  rw [Change.foldl_around_cons, Change.foldl_around_cons, hnone] at hrenamed
  exact scoped_literal.mpr ⟨Change.nodup_foldl_inner _ hnodup, hrenamed⟩

theorem Function.nodup_globalsRenamed {globals : List String} (h : globals.Nodup) (f : Function) :
    (f.globalsRenamed renames globals).Nodup := Change.nodup_foldl_inner _ h

theorem Function.subset_globalsRenamed (globals : List String) (f : Function) :
    globals ⊆ f.globalsRenamed renames globals := by
  have hgrown := Change.grown_foldl_around ((f.changes renames 0).map Change.outward) [globals]
  rw [Change.foldl_around_cons] at hgrown
  cases hgrown with
  | cons hsub => exact hsub

end

end Fragment

namespace Program

open Fragment Description

/-! ## Section 7: Programs -/

/-- Every resolved name of every fragment is in scope, and no scope declares a name twice.  The scopes
    around a name are those of the functions that contain it, from the inside outward, and then the
    root of the program. -/
structure Scoped (p : Program) : Prop where
  root : p.globals.Nodup
  fragments : ∀ m pos f refs, p.Native m pos f refs → Fragment.Scoped [p.globals] [.literal f]

section

variable {p q : Program}

/-- What is in scope stays so when the root grows, and so it is left to look at new fragments. -/
theorem Scoped.of_cases (h : p.Scoped) (hroot : q.globals.Nodup) (hsub : p.globals ⊆ q.globals)
    (hcases : ∀ m pos f refs, q.Native m pos f refs →
      p.Native m pos f refs ∨ Fragment.Scoped [q.globals] [.literal f]) : q.Scoped := by
  refine ⟨hroot, fun m pos f refs hbody => ?_⟩
  rcases hcases m pos f refs hbody with hold | hnew
  · exact (h.fragments m pos f refs hold).mono (.cons hsub .nil)
  · exact hnew

/-! ## Section 8: Loading -/

theorem globals_register (p : Program) (m : MethodRef) : (p.register m).globals = p.globals := by
  unfold register
  split <;> rfl

theorem globals_appendMethod (p : Program) (t : TypeRef) (m : MethodRef) :
    (p.appendMethod t m).globals = p.globals := by
  simp only [appendMethod]
  split
  · rw [globals_register]
    rfl
  · rfl

theorem globals_addType {t : TypeRef} (hok : p.addType t = .ok q) : q.globals = p.globals := by
  obtain ⟨-, rfl⟩ := addType_eq hok
  exact List.foldlRecOn (motive := fun q : Program => q.globals = p.globals) _ _ rfl
    fun q hq m _ => (globals_register q m).trans hq

theorem globals_declareMethods {file typeName : String} {t : TypeRef}
    {ms : List Description.Method} (hok : declareMethods file t typeName ms p = .ok q) :
    q.globals = p.globals := by
  induction ms generalizing p with
  | nil =>
    cases hok
    rfl
  | cons m ms ih =>
    rw [declareMethods] at hok
    obtain ⟨x, -, hok⟩ := bind_eq_ok.mp hok
    obtain ⟨-, hok⟩ := guard_ok hok
    exact (ih hok).trans (globals_appendMethod _ _ _)

theorem globals_declareTypes {file : String} {ds : List TypeDecl}
    (hok : declareTypes file ds p = .ok q) : q.globals = p.globals := by
  induction ds generalizing p with
  | nil =>
    cases hok
    rfl
  | cons d ds ih =>
    obtain ⟨p₁, hd, hok⟩ := bind_eq_ok.mp hok
    obtain ⟨-, kind, p₂, -, hmethods, hadded⟩ := declareType_ok hd
    rw [ih hok, globals_addType hadded, globals_declareMethods hmethods]
    rfl

theorem globals_linkTypes {es : List (TypeRef × TypeDecl)} (hok : linkTypes es p = .ok q) :
    q.globals = p.globals := by
  induction es generalizing p with
  | nil =>
    cases hok
    rfl
  | cons e es ih =>
    obtain ⟨p₁, hlink, hok⟩ := bind_eq_ok.mp hok
    rw [ih hok]
    unfold linkType at hlink
    split at hlink
    · obtain ⟨-, hlink⟩ := guard_ok hlink
      obtain ⟨supers, -, hlink⟩ := bind_eq_ok.mp hlink
      cases hlink
      rfl
    · obtain ⟨super, -, hlink⟩ := bind_eq_ok.mp hlink
      obtain ⟨interfaces, -, hlink⟩ := bind_eq_ok.mp hlink
      cases hlink
      rfl

/-- Nothing is declared in the root before fragments are read. -/
theorem globals_linked {file : String} {x : Description} (hok : x.linked file = .ok p) :
    p.globals = [] := by
  obtain ⟨p₁, hdeclare, hlink⟩ := bind_eq_ok.mp hok
  rw [globals_linkTypes hlink, globals_declareTypes hdeclare]

variable {file : String} {index : MemberIndex}

/-- A fragment is read in the root that the fragments before it have left. -/
theorem Scoped.buildFragment {m : MethodRef} {source : String} (h : p.Scoped)
    (hok : buildFragment p index m source = .ok q) : q.Scoped := by
  unfold Description.buildFragment at hok
  simp only at hok
  split at hok
  · cases hok
  · rename_i f chain hparse
    split at hok
    · cases hok
    · cases hok
      have hgained := gained_of_parse hparse
      have hsettles := settles_of_parse hparse
      refine h.of_cases (hgained.nodup h.root) hsettles.kept.subset ?_
      intro k pos g refs hbody
      rcases native_setBody hbody with hb | hold
      · cases hb
        exact .inr (scoped_of_settles hsettles)
      · exact .inl hold

theorem Scoped.buildMethodBody {m : MethodRef} {d : Description.Method} (h : p.Scoped)
    (hok : buildMethodBody file index m d p = .ok q) : q.Scoped := by
  unfold Description.buildMethodBody at hok
  cases hd : d.native with
  | some =>
    rw [hd] at hok
    exact h.buildFragment hok
  | none =>
    simp only [hd] at hok
    obtain ⟨b, hb, hok⟩ := bind_eq_ok.mp hok
    cases hok
    refine h.of_cases h.root (List.Subset.refl _) ?_
    intro k pos f refs hbody
    rcases native_setBody hbody with rfl | hold
    · exact absurd hb (buildBody_ne_native _ _)
    · exact .inl hold

/-- In a loaded program every resolved name is in scope. -/
theorem Loaded.scoped (h : p.Loaded) : p.Scoped := by
  refine h.induct (fun hlinked hnone => ⟨?_, ?_⟩) fun hok hp => hp.buildMethodBody hok
  · rw [globals_linked hlinked]
    exact List.nodup_nil
  · intro m pos f refs hbody
    unfold Native at hbody
    rw [hnone m] at hbody
    cases hbody

end

/-! ## Section 9: Lowering -/

section

variable {permit : Permit} {p q r : Program}

theorem globals_withMethod (p : Program) (t : TypeRef) (x : Method) :
    (p.withMethod t x).globals = p.globals := globals_appendMethod _ _ _

theorem globals_withTwin (p : Program) (d : MethodRef) : (p.withTwin d).globals = p.globals :=
  globals_withMethod _ _ _

/-- What one step moves or renames is in scope again.  Only the renaming of a fragment declares names
    in the root. -/
theorem Step.scoped (hstep : Step permit q r) (hq : q.Coherent) (h : q.Scoped) : r.Scoped := by
  cases hstep with
  | twin d hd =>
    have hglobals := globals_withTwin q d
    refine h.of_cases (hglobals ▸ h.root) (hglobals ▸ List.Subset.refl _) ?_
    intro m pos g refs hbody
    rcases fragment_withTwin_cases hq.toWired hd hbody with ⟨-, f, hold, rfl⟩ | hsame
    · rw [hglobals]
      exact .inr (Function.scoped_withReceiver (h.fragments d pos f refs hold))
    · exact .inl hsame
  | forwarder d twin t =>
    have hglobals := globals_withMethod q t (Forwarding.forwarderFor q t d twin q.next)
    refine h.of_cases (hglobals ▸ h.root) (hglobals ▸ List.Subset.refl _) ?_
    intro m pos g refs hbody
    rcases body_withMethod_cases rfl hbody with ⟨-, hnew⟩ | hsame
    · cases hnew
    · exact .inl hsame
  | code k kpos block hk =>
    refine h.of_cases h.root (List.Subset.refl _) ?_
    intro m pos g refs hbody
    rcases body_withBody_cases hk hbody with ⟨-, hnew⟩ | hsame
    · cases hnew
    · exact .inl hsame
  | fragment k kpos f refs' name hk =>
    refine h.of_cases (f.nodup_globalsRenamed _ h.root) (f.subset_globalsRenamed _ q.globals) ?_
    intro m pos g refs hbody
    rcases body_withBody_cases hk hbody with ⟨-, hnew⟩ | hsame
    · cases hnew
      -- the root declares what the renamed fragment needs, and keeps what all others do
      exact .inr (Function.scoped_renamed_root _ (h.fragments k kpos f refs' hk))
    · exact .inl hsame

theorem Steps.scoped (hsteps : Steps permit p q) (hp : p.Coherent) (h : p.Scoped) : q.Scoped :=
  (hsteps.induct (P := Scoped) hp h fun _ _ _ hq ih hstep => hstep.scoped hq ih).2

/-- In a loaded program, and after any number of successful runs on it, every resolved name of a
    fragment is declared in the scope it points to, which belongs to a function that contains it or is
    the root, and no scope declares a name twice. -/
theorem lower_scoped (hp : p.Loaded) :
    p.Scoped ∧ ∀ q, Relation.TransGen LowersTo p q → q.Scoped := by
  refine ⟨hp.scoped, fun q hruns => ?_⟩
  have hcoherent := hp.fresh.toCoherent
  obtain ⟨cache, cache', summary, hrun⟩ := lowersTo_of_transGen hcoherent hruns
  exact (lower_phases hcoherent hrun).steps.scoped hcoherent hp.scoped

/-- The names that the scope of a method's fragment declares. -/
def fragmentNames (p : Program) (m : MethodRef) : Option (List String) :=
  ((p.method m).body.bind Body.fragment?).map Function.names

/-- Two runs on the small program.  In the fragment of the class the identifier of a twin is declared,
    and in the fragment that has moved to a twin the receiver is. -/
theorem lower_scoped_greeting : ∃ q, greetingProgram.Loaded ∧
    Relation.TransGen LowersTo greetingProgram q ∧
      q.fragmentNames ⟨3⟩ = some ["@Greeter::name$static(LGreeter;)"] ∧
      q.fragmentNames ⟨5⟩ = some ["this$static"] ∧ greetingProgram.Scoped ∧ q.Scoped := by
  have hnames : (greetingProgram.lower {}).program.fragmentNames ⟨3⟩ =
        some ["@Greeter::name$static(LGreeter;)"] ∧
      (greetingProgram.lower {}).program.fragmentNames ⟨5⟩ = some ["this$static"] := by
    decide +kernel
  obtain ⟨q, cache, summary, hrun, -, -⟩ := greeting_lowers
  rw [hrun] at hnames
  obtain ⟨-, -, hlowered⟩ := lower_lowered greeting_loaded.fresh.toCoherent hrun
  have hfirst : LowersTo greetingProgram q := ⟨{}, cache, summary, hrun⟩
  have hsecond : LowersTo q q := ⟨cache, _, _, lower_of_isLowered hlowered cache⟩
  have hruns := (Relation.TransGen.single hfirst).tail hsecond
  obtain ⟨hbefore, hafter⟩ := lower_scoped greeting_loaded
  exact ⟨q, greeting_loaded, hruns, hnames.1, hnames.2, hbefore, hafter q hruns⟩

end

end Program

end DefaultLowering
