import DefaultLowering.Proofs.RenamingWalk
import DefaultLowering.Proofs.Steps
import Mathlib.Algebra.Group.Defs
import Mathlib.Algebra.Group.Nat.Defs

/-!
# What there is to retarget in a body

The counts of a run are compared with what stands in the bodies: calls of default methods in a typed
body, names that are linked to default methods in a fragment.  A body keeps its workload when it moves
to a twin, and it has none when it uses no default method.

- `RetargetCounts`: counts can be added;
- `Function.counted`: renaming counts every renamed name once, by whether it is invoked;
- `work`: the workload of a body.
-/

namespace DefaultLowering

/-! ## Section 1: Counts -/

attribute [ext] RetargetCounts

namespace RetargetCounts

instance : Zero RetargetCounts := ⟨{}⟩

instance : Add RetargetCounts where
  add x y := ⟨x.calls + y.calls, x.references + y.references, x.invocations + y.invocations,
    x.fragments + y.fragments⟩

section

variable (x y : RetargetCounts)

@[simp] theorem calls_add : (x + y).calls = x.calls + y.calls := rfl
@[simp] theorem references_add : (x + y).references = x.references + y.references := rfl
@[simp] theorem invocations_add : (x + y).invocations = x.invocations + y.invocations := rfl
@[simp] theorem fragments_add : (x + y).fragments = x.fragments + y.fragments := rfl

end

@[simp] theorem calls_zero : (0 : RetargetCounts).calls = 0 := rfl
@[simp] theorem references_zero : (0 : RetargetCounts).references = 0 := rfl
@[simp] theorem invocations_zero : (0 : RetargetCounts).invocations = 0 := rfl
@[simp] theorem fragments_zero : (0 : RetargetCounts).fragments = 0 := rfl

instance : AddCommMonoid RetargetCounts where
  add_assoc x y z := by ext <;> simp [Nat.add_assoc]
  zero_add x := by ext <;> simp
  add_zero x := by ext <;> simp
  add_comm x y := by ext <;> simp [Nat.add_comm]
  nsmul := nsmulRec

/-- The counts of some calls. -/
def ofCalls (n : Nat) : RetargetCounts := { calls := n }

theorem ofCalls_add (m n : Nat) : ofCalls (m + n) = ofCalls m + ofCalls n := by
  ext <;> simp [ofCalls]

end RetargetCounts

/-! ## Section 2: What renaming counts -/

namespace Fragment

namespace Change

/-- A reference that is not invoked. -/
def isReference : Change → Bool
  | reference => true
  | invocation .. => false

/-- An invocation. -/
def isInvocation (c : Change) : Bool := !c.isReference

theorem isReference_outward (c : Change) : c.outward.isReference = c.isReference := by
  rcases c with _ | ⟨_ | _ | level, ident⟩ <;> rfl

theorem countP_outward {q : Change → Bool} (hq : ∀ c : Change, q c.outward = q c)
    (cs : List Change) : (cs.map outward).countP q = cs.countP q := by
  rw [List.countP_map]
  exact List.countP_congr fun c _ => by simp [hq]

theorem isInvocation_outward (c : Change) : c.outward.isInvocation = c.isInvocation := by
  rw [isInvocation, isReference_outward]
  rfl

/-- Every change is counted as what it is. -/
theorem user_foldl_apply (cs : List Change) (s : WalkState RenameCounts) :
    (cs.foldl apply s).user = ⟨s.user.references + cs.countP isReference,
      s.user.invocations + cs.countP isInvocation⟩ := by
  induction cs generalizing s with
  | nil => rfl
  | cons c cs ih =>
    rw [List.foldl_cons, ih]
    cases c with
    | reference =>
      simp [apply, isReference, isInvocation, List.countP_cons]
      omega
    | invocation level =>
      cases level <;> simp [apply, isReference, isInvocation] <;> omega

end Change

/-- The changes are those of the names that have a new identifier: one for each, which is an invocation
    if the name is invoked. -/
structure Counted (renames : Renames) (changes : List Change) (idents : List String)
    (invoked : List (String × Expr)) : Prop where
  all : changes.length = idents.countP fun ident => (renames.lookup ident).isSome
  invocations : changes.countP Change.isInvocation =
    invoked.countP fun c => (renames.lookup c.1).isSome

namespace Counted

variable {renames : Renames} {changes changes' : List Change}
  {idents idents' : List String} {invoked invoked' : List (String × Expr)}

theorem nil : Counted renames [] [] [] := ⟨rfl, rfl⟩

theorem append (h : Counted renames changes idents invoked)
    (h' : Counted renames changes' idents' invoked') :
    Counted renames (changes ++ changes') (idents ++ idents') (invoked ++ invoked') := by
  refine ⟨?_, ?_⟩
  · rw [List.length_append, List.countP_append, h.all, h'.all]
  · rw [List.countP_append, List.countP_append, h.invocations, h'.invocations]

/-- The order of the names does not matter. -/
theorem perm (h : Counted renames changes idents invoked) (hidents : idents.Perm idents') :
    Counted renames changes idents' invoked :=
  ⟨h.all.trans (hidents.countP_eq _), h.invocations⟩

theorem name (ident : String) : Counted renames (nameChanges renames ident) [ident] [] := by
  unfold nameChanges
  cases hnew : renames.lookup ident with
  | some => exact ⟨by simp [hnew], rfl⟩
  | none => exact ⟨by simp [hnew], rfl⟩

theorem call (own : Nat) (ident : String) (q : Expr) :
    Counted renames (callChanges renames own ident q) [ident] [(ident, q)] := by
  unfold callChanges
  cases hnew : renames.lookup ident with
  | some => exact ⟨by simp [hnew], by simp [hnew, Change.isInvocation, Change.isReference]⟩
  | none => exact ⟨by simp [hnew], by simp [hnew]⟩

theorem outward (h : Counted renames changes idents invoked) :
    Counted renames (changes.map Change.outward) idents invoked := by
  refine ⟨?_, ?_⟩
  · rw [List.length_map, h.all]
  · rw [Change.countP_outward Change.isInvocation_outward, h.invocations]

theorem countP_invoked_le (h : Counted renames changes idents invoked) :
    (invoked.countP fun c => (renames.lookup c.1).isSome) ≤
      idents.countP fun ident => (renames.lookup ident).isSome := by
  rw [← h.invocations, ← h.all]
  exact List.countP_le_length

/-- What is no invocation is a reference. -/
theorem references (h : Counted renames changes idents invoked) :
    changes.countP Change.isReference =
      (idents.countP fun ident => (renames.lookup ident).isSome) -
        invoked.countP fun c => (renames.lookup c.1).isSome := by
  have hlength := List.length_eq_countP_add_countP Change.isReference (l := changes)
  have hinvocations : changes.countP (fun c => !c.isReference) = _ := h.invocations
  simp only [Bool.not_eq_true, Bool.decide_eq_false, hinvocations, h.all] at hlength
  omega

end Counted

section

variable (renames : Renames)

mutual

theorem Expr.counted (own : Nat) (x : Expr) :
    Counted renames (x.changes renames own) x.idents x.invoked := by
  cases x with
  | name ident q =>
    -- a name is left after its qualifier, and listed before it
    have hname : Counted renames (nameChanges renames ident) [ident] [] := .name ident
    have hall := (Expr.counted own q).append hname
    rw [List.append_nil] at hall
    exact hall.perm (List.perm_append_singleton ident q.idents)
  | call callee args =>
    have hargs := counted_args own args
    cases callee with
    | name ident q =>
      -- the callee is counted when the call is left, and not as a name of its own
      have hcall : Counted renames (callChanges renames own ident q) [ident] [(ident, q)] :=
        .call own ident q
      have hall := ((Expr.counted own q).append hargs).append hcall
      exact hall.perm (List.perm_append_singleton ident (q.idents ++ identsOfArgs args))
    | _ => exact (Expr.counted own _).append hargs
  | binary op x y => exact (Expr.counted own x).append (Expr.counted own y)
  | unary op x => exact Expr.counted own x
  | func f => exact (Function.counted (own + 1) f).outward
  | _ => exact .nil

theorem counted_args (own : Nat) (xs : List Expr) :
    Counted renames (argsChanges renames own xs) (identsOfArgs xs) (invokedInArgs xs) := by
  cases xs with
  | nil => exact .nil
  | cons x xs => exact (Expr.counted own x).append (counted_args own xs)

theorem Stmt.counted (own : Nat) (s : Stmt) :
    Counted renames (s.changes renames own) s.idents s.invoked := by
  cases s with
  | absent => exact .nil
  | block ss => exact counted_stmts own ss
  | expr x => exact Expr.counted own x
  | ret x => exact Expr.counted own x
  | var ds => exact counted_decls own ds
  | cond test yes no =>
    have hall := (Expr.counted own test).append
      ((Stmt.counted own yes).append (Stmt.counted own no))
    rw [← List.append_assoc test.idents] at hall
    exact hall

theorem counted_stmts (own : Nat) (ss : List Stmt) :
    Counted renames (stmtsChanges renames own ss) (identsOfStmts ss) (invokedInStmts ss) := by
  cases ss with
  | nil => exact .nil
  | cons s ss => exact (Stmt.counted own s).append (counted_stmts own ss)

theorem counted_decls (own : Nat) (ds : List Decl) :
    Counted renames (declsChanges renames own ds) (identsOfDecls ds) (invokedInDecls ds) := by
  cases ds with
  | nil => exact .nil
  | cons d ds =>
    cases d with
    | mk name init => exact (Expr.counted own init).append (counted_decls own ds)

/-- Every name of a function that has a new identifier is counted once. -/
theorem Function.counted (own : Nat) (f : Function) :
    Counted renames (f.changes renames own) f.idents f.invoked := by
  cases f with
  | mk name params names body => exact Stmt.counted own body

end

end

/-- What the traversal counts when nothing stands in its way. -/
theorem user_rename_of_safe {renames : Renames} {f : Function}
    (globals : List String) (h : f.Safe renames) :
    (f.rename renames globals).user =
      ⟨(f.idents.countP fun ident => (renames.lookup ident).isSome) -
          f.invoked.countP fun c => (renames.lookup c.1).isSome,
        f.invoked.countP fun c => (renames.lookup c.1).isSome⟩ := by
  have hdone := (walk_renamed f).done h.1 h.2 ⟨{}, [globals], none⟩ rfl rfl
  have hrename : (f.rename renames globals).user =
      ((walk (renameVisitor renames) 0 (.function f)).run ⟨{}, [globals], none⟩).2.user := rfl
  have hcounted := f.counted renames 0
  -- the scopes that the changes refer to do not matter for how many there are
  rw [hrename, hdone, Change.user_foldl_apply, Change.countP_outward Change.isReference_outward,
    Change.countP_outward Change.isInvocation_outward, hcounted.references, hcounted.invocations]
  simp

/-- The receiver that a twin gets is no name that is renamed. -/
theorem countP_withReceiver {renames : Renames} {f : Function}
    (h : renames.lookup receiverParam = none) :
    (f.withReceiver.idents.countP fun ident => (renames.lookup ident).isSome) =
        (f.idents.countP fun ident => (renames.lookup ident).isSome) ∧
      (f.withReceiver.invoked.countP fun c => (renames.lookup c.1).isSome) =
        f.invoked.countP fun c => (renames.lookup c.1).isSome := by
  have hchanges : f.withReceiver.changes renames 0 = f.changes renames 0 := by
    cases f with
    | mk name params names body => exact Part.changes_readingReceiver h (.stmt body)
  -- the counts of both functions are those of the same changes
  have hcounted := f.counted renames 0
  have hcounted' := f.withReceiver.counted renames 0
  rw [hchanges] at hcounted'
  exact ⟨hcounted'.all.symm.trans hcounted.all,
    hcounted'.invocations.symm.trans hcounted.invocations⟩

end Fragment

/-! ## Section 3: The workload of a body -/

namespace Program

/-- The identifier is linked to a default method. -/
def linksDefault (p : Program) (refs : List Linkage) (ident : String) : Bool :=
  refs.any fun r => r.ident == ident && (p.linkedDefault r).isSome

/-- What there is to retarget in a fragment. -/
def fragmentWork (p : Program) (f : Fragment.Function) (refs : List Linkage) : RetargetCounts :=
  if (linkTargets refs).any p.isDefault then
    { references := f.idents.countP (p.linksDefault refs) -
        f.invoked.countP fun c => p.linksDefault refs c.1
      invocations := f.invoked.countP fun c => p.linksDefault refs c.1
      fragments := 1 }
  else 0

/-- What there is to retarget in a body. -/
def work (p : Program) : Body → RetargetCounts
  | .native _ (some f) refs => p.fragmentWork f refs
  | .native _ none _ => 0
  | b => .ofCalls (b.targets.countP p.isDefault)

/-- What there is to retarget in the body of a method. -/
def load (p : Program) (m : MethodRef) : RetargetCounts := (p.method m).body.elim 0 p.work

section

variable {p q : Program}

theorem isSome_lookup_linkRenames (name : MethodRef → String) (refs : List Linkage)
    (ident : String) :
    ((p.linkRenames name refs).lookup ident).isSome = p.linksDefault refs ident := by
  rw [Bool.eq_iff_iff, linksDefault, List.any_eq_true]
  constructor
  · intro hsome
    obtain ⟨new, hnew⟩ := Option.isSome_iff_exists.mp hsome
    obtain ⟨r, hr, d, hd, hident, -⟩ := lookup_linkRenames hnew
    exact ⟨r, hr, by simp [hident, hd]⟩
  · rintro ⟨r, hr, hlinked⟩
    rw [Bool.and_eq_true, beq_iff_eq] at hlinked
    cases hnew : (p.linkRenames name refs).lookup ident with
    | some => rfl
    | none =>
      rw [← hlinked.1] at hnew
      rw [linkedDefault_of_lookup hr hnew] at hlinked
      exact hlinked.2

theorem countP_linksDefault_le (f : Fragment.Function) (refs : List Linkage) :
    (f.invoked.countP fun c => p.linksDefault refs c.1) ≤ f.idents.countP (p.linksDefault refs) := by
  have hle := (f.counted (p.linkRenames (fun _ => "") refs) 0).countP_invoked_le
  simpa only [isSome_lookup_linkRenames] using hle

theorem any_linkTargets (name : MethodRef → String) (refs : List Linkage) :
    (linkTargets refs).any p.isDefault = true ↔ p.linkRenames name refs ≠ [] := by
  rw [ne_eq, linkRenames_eq_nil]
  simp

/-- What is counted for a fragment is what there is. -/
theorem fragmentWork_of_safe {name : MethodRef → String} {f : Fragment.Function}
    {refs : List Linkage} (globals : List String) (hlinked : p.linkRenames name refs ≠ [])
    (hsafe : f.Safe (p.linkRenames name refs)) :
    p.fragmentWork f refs =
      { references := (f.rename (p.linkRenames name refs) globals).user.references
        invocations := (f.rename (p.linkRenames name refs) globals).user.invocations
        fragments := 1 } := by
  rw [fragmentWork, if_pos ((any_linkTargets name refs).mpr hlinked),
    Fragment.user_rename_of_safe globals hsafe]
  simp only [isSome_lookup_linkRenames]

theorem fragmentWork_withReceiver {f : Fragment.Function} {refs : List Linkage}
    (h : (linkTargets refs).any p.isDefault = true → p.linksDefault refs receiverParam = false) :
    p.fragmentWork f.withReceiver refs = p.fragmentWork f refs := by
  unfold fragmentWork
  split
  next hlinked =>
    -- what the names are changed to is of no importance here
    have hreceiver : (p.linkRenames (fun _ => "") refs).lookup receiverParam = none := by
      rw [← Option.not_isSome_iff_eq_none, isSome_lookup_linkRenames, h hlinked]
      exact Bool.false_ne_true
    obtain ⟨hidents, hinvoked⟩ := Fragment.countP_withReceiver (f := f) hreceiver
    simp only [isSome_lookup_linkRenames] at hidents hinvoked
    rw [hidents, hinvoked]
  next => rfl

/-- A body is the same work in a twin. -/
theorem work_relocation (r : Relocation) {b : Body}
    (h : ∀ pos f refs, b = .native pos (some f) refs → (linkTargets refs).any p.isDefault = true →
      p.linksDefault refs receiverParam = false) : p.work (r.body b) = p.work b := by
  rcases b with ⟨pos, _ | block⟩ | ⟨pos, _ | f, refs⟩
  · rfl
  · have htargets := r.targets_body (.code pos (some block))
    show RetargetCounts.ofCalls ((r.body (.code pos (some block))).targets.countP p.isDefault) = _
    rw [htargets]
    rfl
  · rfl
  · exact fragmentWork_withReceiver (h pos f refs rfl)

theorem work_congr (h : q.isDefault = p.isDefault) (b : Body) : q.work b = p.work b := by
  rcases b with ⟨pos, block⟩ | ⟨pos, _ | f, refs⟩
  · simp only [work, h]
  · rfl
  · have hlinks : q.linksDefault refs = p.linksDefault refs := by
      funext ident
      simp only [linksDefault, linkedDefault, h]
    simp only [work, fragmentWork, hlinks, h]

/-- A body that uses no default method is no work. -/
theorem work_of_clean {b : Body} (h : ∀ d ∈ b.targets, p.isDefault d = false) : p.work b = 0 := by
  have hcount : b.targets.countP p.isDefault = 0 := by
    rw [List.countP_eq_zero]
    exact fun d hd => by simp [h d hd]
  rcases b with ⟨pos, block⟩ | ⟨pos, _ | f, refs⟩
  · rw [work, hcount]
    · rfl
    · rintro _ _ _ ⟨⟩
    · rintro _ _ ⟨⟩
  · rfl
  · have hnone : ∀ d ∈ linkTargets refs, p.isDefault d = false := h
    rw [work, fragmentWork, if_neg]
    simpa using hnone

theorem load_congr (h : q.isDefault = p.isDefault) {m : MethodRef} (hm : q.method m = p.method m) :
    q.load m = p.load m := by
  unfold load
  rw [hm]
  cases (p.method m).body with
  | none => rfl
  | some b => exact work_congr h b

theorem load_of_clean {m : MethodRef} (h : p.Clean m) : p.load m = 0 := by
  cases hbody : (p.method m).body with
  | none => rw [load, hbody]; rfl
  | some b =>
    rw [load, hbody]
    exact work_of_clean (h b hbody)

end

end Program

end DefaultLowering
