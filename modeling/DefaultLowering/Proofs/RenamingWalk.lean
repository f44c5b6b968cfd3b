import DefaultLowering.Proofs.Renaming

/-!
# The traversal that renames a fragment

What the traversal gives, for every tree and every table of renames.  If nothing stands in the way, it
gives the tree of the rule, and it has made the changes of the rule one by one.  If something does, it
stops with a fault.

- `Walk.Does`: the tree and the changes that a part of the traversal gives, and when it stops;
- `rename_of_safe`, `rename_of_not_safe`: the outcome for a whole fragment.
-/

namespace DefaultLowering.Fragment

/-! ## Section 1: Changes of the state -/

namespace Change

/-- The state of the traversal after a change. -/
def apply (s : WalkState RenameCounts) : Change → WalkState RenameCounts
  | reference => { s with user := { s.user with references := s.user.references + 1 } }
  | invocation none _ =>
    { s with user := { s.user with invocations := s.user.invocations + 1 } }
  | invocation (some level) ident =>
    { s with
      scopes := s.scopes.modify level (declare ident)
      user := { s.user with invocations := s.user.invocations + 1 } }

theorem fault_apply (s : WalkState RenameCounts) (c : Change) : (apply s c).fault = s.fault := by
  rcases c with _ | ⟨_ | level, ident⟩ <;> rfl

theorem length_scopes_apply (s : WalkState RenameCounts) (c : Change) :
    (apply s c).scopes.length = s.scopes.length := by
  rcases c with _ | ⟨_ | level, ident⟩
  · rfl
  · rfl
  · exact List.length_modify ..

theorem fault_foldl_apply (cs : List Change) (s : WalkState RenameCounts) :
    (cs.foldl apply s).fault = s.fault := by
  induction cs generalizing s with
  | nil => rfl
  | cons c cs ih => exact (ih (apply s c)).trans (fault_apply s c)

theorem length_scopes_foldl_apply (cs : List Change) (s : WalkState RenameCounts) :
    (cs.foldl apply s).scopes.length = s.scopes.length := by
  induction cs generalizing s with
  | nil => rfl
  | cons c cs ih => exact (ih (apply s c)).trans (length_scopes_apply s c)

/-- The state with one more scope inside of the others. -/
def within (names : List String) (s : WalkState RenameCounts) : WalkState RenameCounts :=
  { s with scopes := names :: s.scopes }

theorem apply_within (names : List String) (s : WalkState RenameCounts) (c : Change) :
    apply (within names s) c = within (inner names c) (apply s c.outward) := by
  rcases c with _ | ⟨_ | _ | level, ident⟩ <;> rfl

/-- A change is made to the innermost scope or to those around it. -/
theorem foldl_apply_within (cs : List Change) (names : List String) (s : WalkState RenameCounts) :
    cs.foldl apply (within names s) =
      within (cs.foldl inner names) ((cs.map outward).foldl apply s) := by
  induction cs generalizing names s with
  | nil => rfl
  | cons c cs ih => rw [List.foldl_cons, apply_within, ih, List.map_cons, List.foldl_cons,
      List.foldl_cons]

end Change

/-! ## Section 2: What a part of the traversal does -/

namespace Walk

variable {α β : Type}

/-- Behind a fault nothing more is done. -/
def Halts {σ : Type} (w : Walk σ α) : Prop :=
  ∀ s fault, s.fault = some fault → (w.run s).2.fault = some fault

/-- What a part of the renaming traversal does, inside of `depth` scopes.  It meets the `invoked`
    names, and `blocks` says that it meets functions only whose bodies are blocks. -/
structure Does (renames : Renames) (depth : Nat) (w : Walk RenameCounts α)
    (invoked : List (String × Expr)) (blocks : Prop) (result : α) (changes : List Change) :
    Prop where
  halts : w.Halts
  /-- Without a fault it gives the result and makes the changes. -/
  done : Settled renames invoked → blocks → ∀ s, s.fault = none → s.scopes.length = depth →
    w.run s = (result, changes.foldl Change.apply s)
  /-- Otherwise it stops. -/
  stops : ¬(Settled renames invoked ∧ blocks) → ∀ s, s.fault = none → s.scopes.length = depth →
    ∃ fault, (w.run s).2.fault = some fault ∧ (blocks → fault.category = .invariant)

theorem run_bind {σ : Type} (w : Walk σ α) (f : α → Walk σ β) (s : WalkState σ) :
    (w >>= f).run s = (f (w.run s).1).run (w.run s).2 := rfl

/-- A walk that goes on only without a fault. -/
theorem run_unless_halted {σ : Type} (w w' : Walk σ α) (s : WalkState σ) :
    (do if ← halted then w else w').run s = if s.fault.isSome then w.run s else w'.run s := by
  change (if s.fault.isSome = true then w else w').run s = _
  split <;> rfl

theorem Halts.pure {σ : Type} (a : α) : Halts (pure a : Walk σ α) :=
  fun _ _ h => h

theorem Halts.bind {σ : Type} {w : Walk σ α} {f : α → Walk σ β} (hw : w.Halts)
    (hf : ∀ a, (f a).Halts) : (w >>= f).Halts := by
  intro s fault hs
  rw [run_bind]
  exact hf _ _ fault (hw s fault hs)

theorem Halts.halt {σ : Type} (f : Fault) : (halt f : Walk σ Unit).Halts := by
  intro s fault hs
  show (s.fault <|> some f) = some fault
  rw [hs]
  rfl

variable {renames : Renames} {depth : Nat}

theorem Does.pure (a : α) : Does renames depth (pure a) [] True a [] := by
  refine ⟨.pure a, fun _ _ _ _ _ => rfl, ?_⟩
  intro hnot
  exact absurd ⟨List.forall_mem_nil _, trivial⟩ hnot

theorem Does.of_eq_pure {w : Walk RenameCounts α} {a : α} (h : w = Pure.pure a) :
    Does renames depth w [] True a [] :=
  h ▸ .pure a

section

variable {w : Walk RenameCounts α} {f : α → Walk RenameCounts β}
  {invoked invoked' : List (String × Expr)} {blocks blocks' : Prop} {a : α} {b : β}
  {changes changes' : List Change}

/-- One part after the other. -/
theorem Does.bind (hw : Does renames depth w invoked blocks a changes) (hhalts : ∀ a, (f a).Halts)
    (hf : Does renames depth (f a) invoked' blocks' b changes') :
    Does renames depth (w >>= f) (invoked ++ invoked') (blocks ∧ blocks') b
      (changes ++ changes') := by
  refine ⟨hw.halts.bind hhalts, ?_, ?_⟩
  · intro hsettled hblocks s hs hdepth
    obtain ⟨hfirst, hsecond⟩ := settled_append.mp hsettled
    rw [run_bind, hw.done hfirst hblocks.1 s hs hdepth, List.foldl_append]
    refine hf.done hsecond hblocks.2 _ ?_ ?_
    · exact (Change.fault_foldl_apply changes s).trans hs
    · exact (Change.length_scopes_foldl_apply changes s).trans hdepth
  · intro hnot s hs hdepth
    rw [run_bind]
    by_cases hfirst : Settled renames invoked ∧ blocks
    · -- the first part is done, so it is the second that stops
      have hsecond : ¬(Settled renames invoked' ∧ blocks') := by
        rintro ⟨hsettled, hblocks⟩
        exact hnot ⟨settled_append.mpr ⟨hfirst.1, hsettled⟩, hfirst.2, hblocks⟩
      rw [hw.done hfirst.1 hfirst.2 s hs hdepth]
      obtain ⟨fault, hfault, hcategory⟩ := hf.stops hsecond (changes.foldl Change.apply s)
        ((Change.fault_foldl_apply changes s).trans hs)
        ((Change.length_scopes_foldl_apply changes s).trans hdepth)
      exact ⟨fault, hfault, fun hblocks => hcategory hblocks.2⟩
    · obtain ⟨fault, hfault, hcategory⟩ := hw.stops hfirst s hs hdepth
      exact ⟨fault, hhalts _ _ fault hfault, fun hblocks => hcategory hblocks.1⟩

/-- A part after which nothing is done but to put its result into place. -/
theorem Does.bind_pure (hw : Does renames depth w invoked blocks a changes)
    (hhalts : ∀ a, (f a).Halts) (hf : f a = Pure.pure b) :
    Does renames depth (w >>= f) invoked blocks b changes := by
  have hpure : Does renames depth (f a) [] True b [] := by
    rw [hf]
    exact .pure b
  have hboth := hw.bind hhalts hpure
  rwa [List.append_nil, List.append_nil, and_true] at hboth

/-- A part after which the traversal stops, because of a function whose body is no block. -/
theorem Does.bind_halt {fault : Fault} {c : β}
    (hw : Does renames depth w invoked blocks a changes) (hhalts : ∀ a, (f a).Halts)
    (hf : f a = do Walk.halt fault; return b) :
    Does renames depth (w >>= f) invoked (blocks ∧ False) c changes := by
  have hstop : Does renames depth (f a) [] False c [] := by
    rw [hf]
    refine ⟨.bind (.halt fault) fun _ => .pure _, fun _ hfalse => hfalse.elim, ?_⟩
    intro _ s hs _
    refine ⟨fault, ?_, False.elim⟩
    show (s.fault <|> some fault) = some fault
    rw [hs]
    rfl
  have hboth := hw.bind hhalts hstop
  rwa [List.append_nil, List.append_nil] at hboth

theorem Does.map (g : α → β) (hw : Does renames depth w invoked blocks a changes) :
    Does renames depth (do return g (← w)) invoked blocks (g a) changes :=
  hw.bind_pure (fun _ => .pure _) rfl

end

end Walk

/-! ## Section 3: Leaving a node -/

section

variable {renames : Renames} {own : Nat} {again : Node → Walk RenameCounts Node}

/-- The scope of an invocation is found in the renamed qualifier where the rule says. -/
theorem qualifierLevel_renamed {q : Expr} {level : Nat} (ident : String)
    (h : q.rootLevel renames own = some level) :
    qualifierLevel ident own (q.renamed renames own) = .ok level := by
  cases q with
  | this =>
    cases h
    rfl
  | name =>
    simp only [Expr.rootLevel] at h
    simp only [Expr.renamed]
    split at h
    · cases h
    · next hnone =>
      cases h
      rw [hnone]
      rfl
    · next hnone =>
      rw [hnone]
      exact qualifierLevel_renamed ident h
  | _ => cases h

theorem qualifierLevel_renamed_of_none {q : Expr} (ident : String)
    (h : q.rootLevel renames own = none) :
    ∃ fault, qualifierLevel ident own (q.renamed renames own) = .error fault ∧
      fault.category = .invariant := by
  cases q with
  | this => cases h
  | name =>
    simp only [Expr.rootLevel] at h
    simp only [Expr.renamed]
    split at h
    · next hnew =>
      rw [hnew]
      exact ⟨_, rfl, rfl⟩
    · cases h
    · next hnone =>
      rw [hnone]
      exact qualifierLevel_renamed_of_none ident h
  | call callee =>
    rcases callee.name_or_ne with ⟨ident', q', level', rfl⟩ | hcallee
    · simp only [Expr.renamed]
      split <;> exact ⟨_, rfl, rfl⟩
    · rw [Expr.renamed_call hcallee]
      exact ⟨_, rfl, rfl⟩
  | _ => exact ⟨_, rfl, rfl⟩

/-- An invocation whose scope is found. -/
theorem run_renameLeave_call {place : Place} {ident new : String} {q : Expr} {level : Option Nat}
    {args : List Expr} {s : WalkState RenameCounts} {root : Nat}
    (hnew : renames.lookup ident = some new)
    (hroot : qualifierLevel ident (s.scopes.length - 2) q = .ok root) :
    (renameLeave renames place (.expr (.call (.name ident q level) args))).run s =
      (.expr (.call (.name new .absent (some root)) (q :: args)),
        Change.apply s (.invocation (some root) new)) := by
  have hget : (get : Walk RenameCounts (WalkState RenameCounts)).run s = (s, s) := rfl
  simp only [renameLeave, hnew]
  rw [Walk.run_bind, hget]
  simp only [hroot]
  rfl

/-- An invocation whose scope is not found. -/
theorem run_renameLeave_call_error {place : Place} {ident new : String} {q : Expr}
    {level : Option Nat} {args : List Expr} {s : WalkState RenameCounts} {fault : Fault}
    (hnew : renames.lookup ident = some new)
    (hroot : qualifierLevel ident (s.scopes.length - 2) q = .error fault) :
    (renameLeave renames place (.expr (.call (.name ident q level) args))).run s =
      (.expr (.call (.name ident q level) args), { s with fault := s.fault <|> some fault }) := by
  have hget : (get : Walk RenameCounts (WalkState RenameCounts)).run s = (s, s) := rfl
  simp only [renameLeave, hnew]
  rw [Walk.run_bind, hget]
  simp only [hroot]
  rfl

theorem halts_renameLeave_call (place : Place) (ident : String) (q : Expr) (level : Option Nat)
    (args : List Expr) :
    (renameLeave renames place (.expr (.call (.name ident q level) args))).Halts := by
  intro s fault hs
  cases hnew : renames.lookup ident with
  | none =>
    simp only [renameLeave, hnew]
    exact hs
  | some =>
    cases hroot : qualifierLevel ident (s.scopes.length - 2) q with
    | ok =>
      rw [run_renameLeave_call hnew hroot]
      exact (Change.fault_apply s _).trans hs
    | error =>
      rw [run_renameLeave_call_error hnew hroot, hs]
      rfl

/-- A name that is not invoked. -/
theorem renameLeave_name {place : Place} (hplace : place ≠ .callee) (ident : String) (q : Expr)
    (level : Option Nat) :
    Walk.Does renames (own + 2)
      (renameLeave renames place (.expr (.name ident (q.renamed renames own) level))) [] True
      (.expr ((Expr.name ident q level).renamed renames own)) (nameChanges renames ident) := by
  simp only [renameLeave, hplace, if_false, Expr.renamed, nameChanges]
  cases renames.lookup ident with
  | none => exact .pure _
  | some =>
    refine ⟨.bind (fun _ _ h => h) fun _ => .pure _, fun _ _ _ _ _ => rfl, ?_⟩
    intro hnot
    exact absurd ⟨List.forall_mem_nil _, trivial⟩ hnot

/-- The invocation of a name. -/
theorem renameLeave_call (place : Place) (ident : String) (q : Expr) (level : Option Nat)
    (args : List Expr) :
    Walk.Does renames (own + 2)
      (renameLeave renames place (.expr (.call (.name ident (q.renamed renames own) level)
        (argsRenamed renames own args)))) [(ident, q)] True
      (.expr ((Expr.call (.name ident q level) args).renamed renames own))
      (callChanges renames own ident q) := by
  refine ⟨halts_renameLeave_call place ident _ level _, ?_, ?_⟩
  · intro hsettled _ s hs hdepth
    have hown : s.scopes.length - 2 = own := by omega
    cases hnew : renames.lookup ident with
    | none =>
      simp only [renameLeave, Expr.renamed, callChanges, hnew]
      rfl
    | some =>
      have hroot := hsettled (ident, q) (List.mem_singleton_self _) (by rw [hnew]; rfl)
      rw [Expr.isSome_rootLevel renames 0 own q] at hroot
      obtain ⟨root, hroot⟩ := Option.isSome_iff_exists.mp hroot
      have hlevel := qualifierLevel_renamed ident hroot
      simp only [Expr.renamed, callChanges, hnew, hroot]
      rw [run_renameLeave_call hnew (by rw [hown]; exact hlevel)]
      rfl
  · intro hnot s hs hdepth
    have hown : s.scopes.length - 2 = own := by omega
    -- it stops only because there is a rename and no scope for it
    have hnew : (renames.lookup ident).isSome = true ∧ (q.rootLevel renames own).isSome = false := by
      by_contra hcon
      refine hnot ⟨?_, trivial⟩
      rw [Settled, List.forall_mem_singleton, Expr.isSome_rootLevel renames 0 own q]
      intro hsome
      by_contra hroot
      exact hcon ⟨hsome, by simpa using hroot⟩
    obtain ⟨new, hlookup⟩ := Option.isSome_iff_exists.mp hnew.1
    have hroot : q.rootLevel renames own = none := by simpa using hnew.2
    obtain ⟨fault, hlevel, hcategory⟩ := qualifierLevel_renamed_of_none ident hroot
    rw [run_renameLeave_call_error hlookup (by rw [hown]; exact hlevel), hs]
    exact ⟨fault, rfl, fun _ => hcategory⟩

/-- Everything else is left as its parts make it. -/
theorem renameLeave_other (place : Place) {x : Expr}
    (hname : ∀ ident q level, x = .name ident q level → place = .callee)
    (hcall : ∀ ident q level args, x ≠ .call (.name ident q level) args) :
    renameLeave renames place (.expr x) = pure (.expr x) := by
  cases x with
  | name ident q level =>
    rw [hname ident q level rfl]
    rfl
  | call callee args =>
    rcases callee.name_or_ne with ⟨ident, q, level, rfl⟩ | hcallee
    · exact absurd rfl (hcall ident q level args)
    · cases callee with
      | name ident q level => exact absurd rfl (hcallee ident q level)
      | _ => rfl
  | _ => rfl

/-! ## Section 4: Visiting a node -/

section

variable {depth : Nat} {place : Place} {around : Node → Option Node} {n node : Node}
  {children : Walk RenameCounts Node} {invoked invoked' : List (String × Expr)} {blocks : Prop}
  {changes changes' : List Change}

/-- The renaming visitor enters every node as it is. -/
theorem visit_run {s : WalkState RenameCounts} (hs : s.fault = none) :
    (visit (renameVisitor renames) again place around n children).run s =
      if (children.run s).2.fault.isSome then children.run s
      else (renameLeave renames place (children.run s).1).run (children.run s).2 := by
  have henter : (renameVisitor renames).enter ⟨place, around n⟩ n = pure {} := rfl
  -- the two checks in front find no fault; what is left are the parts and the leaving
  have hlater : (visit (renameVisitor renames) again place around n children).run s =
      (do let node ← children
          if ← Walk.halted then return node else renameLeave renames place node).run s := by
    unfold visit
    rw [Walk.run_unless_halted, hs, henter, pure_bind, if_neg (by simp), Walk.run_unless_halted, hs,
      if_neg (by simp)]
    rfl
  rw [hlater, Walk.run_bind, Walk.run_unless_halted]
  rfl

/-- Behind a fault nothing is visited. -/
theorem halts_visit : (visit (renameVisitor renames) again place around n children).Halts := by
  intro s fault hs
  unfold visit
  rw [Walk.run_unless_halted, hs, if_pos (by simp)]
  exact hs

/-- The parts of a node are renamed, and then the node itself. -/
theorem visit_does {left : Node}
    (hchildren : Walk.Does renames depth children invoked blocks node changes)
    (hleave : Walk.Does renames depth (renameLeave renames place node) invoked' True left changes') :
    Walk.Does renames depth (visit (renameVisitor renames) again place around n children)
      (invoked ++ invoked') blocks left (changes ++ changes') := by
  refine ⟨halts_visit, ?_, ?_⟩
  · intro hsettled hblocks s hs hdepth
    obtain ⟨hparts, hself⟩ := settled_append.mp hsettled
    have hfault := (Change.fault_foldl_apply changes s).trans hs
    rw [visit_run hs, hchildren.done hparts hblocks s hs hdepth]
    simp only [hfault, Option.isSome_none, Bool.false_eq_true, if_false, List.foldl_append]
    exact hleave.done hself trivial _ hfault
      ((Change.length_scopes_foldl_apply changes s).trans hdepth)
  · intro hnot s hs hdepth
    rw [visit_run hs]
    by_cases hparts : Settled renames invoked ∧ blocks
    · have hself : ¬(Settled renames invoked' ∧ True) := by
        rintro ⟨hself, -⟩
        exact hnot ⟨settled_append.mpr ⟨hparts.1, hself⟩, hparts.2⟩
      have hfault := (Change.fault_foldl_apply changes s).trans hs
      rw [hchildren.done hparts.1 hparts.2 s hs hdepth]
      simp only [hfault, Option.isSome_none, Bool.false_eq_true, if_false]
      obtain ⟨fault, hstop, hcategory⟩ := hleave.stops hself _ hfault
        ((Change.length_scopes_foldl_apply changes s).trans hdepth)
      exact ⟨fault, hstop, fun _ => hcategory trivial⟩
    · obtain ⟨fault, hstop, hcategory⟩ := hchildren.stops hparts s hs hdepth
      rw [if_pos (by rw [hstop]; rfl)]
      exact ⟨fault, hstop, hcategory⟩

/-- A node that is left as its parts make it. -/
theorem visit_kept (hchildren : Walk.Does renames depth children invoked blocks node changes)
    (hleave : renameLeave renames place node = pure node) :
    Walk.Does renames depth (visit (renameVisitor renames) again place around n children) invoked
      blocks node changes := by
  have hboth : Walk.Does renames depth (visit (renameVisitor renames) again place around n children)
      _ _ _ _ := visit_does hchildren (.of_eq_pure hleave)
  rwa [List.append_nil, List.append_nil] at hboth

variable {α : Type} {embed : α → Node} {project : Node → Option α} {within : α → Node} {x y z : α}
  {parts : Walk RenameCounts α}

/-- What comes back is of the sort of the node, since leaving it gives such a node. -/
theorem visitAs_does (hproject : ∀ a, project (embed a) = some a)
    (hparts : Walk.Does renames depth parts invoked blocks y changes)
    (hleave : Walk.Does renames depth (renameLeave renames place (embed y)) invoked' True (embed z)
      changes') :
    Walk.Does renames depth (visitAs (renameVisitor renames) again embed project place within x parts)
      (invoked ++ invoked') blocks z (changes ++ changes') := by
  refine (visit_does (hparts.map embed) hleave).bind_pure (fun n => ?_) (by simp only [hproject])
  split
  · exact .pure _
  · exact .bind (.halt _) fun _ => .pure _

theorem visitAs_kept (hproject : ∀ a, project (embed a) = some a)
    (hparts : Walk.Does renames depth parts invoked blocks y changes)
    (hleave : renameLeave renames place (embed y) = pure (embed y)) :
    Walk.Does renames depth (visitAs (renameVisitor renames) again embed project place within x parts)
      invoked blocks y changes := by
  have hboth : Walk.Does renames depth (visitAs (renameVisitor renames) again embed project place
      within x parts) _ _ _ _ := visitAs_does hproject hparts (.of_eq_pure hleave)
  rwa [List.append_nil, List.append_nil] at hboth

end

/-! ## Section 5: The parts of an expression -/

/-- A callee with the new identifiers.  A name is left to the invocation. -/
def Expr.calleeRenamed (renames : Renames) (own : Nat) : Expr → Expr
  | .name ident q level => .name ident (q.renamed renames own) level
  | x => x.renamed renames own

/-- What is done to a callee. -/
def Expr.calleeChanges (renames : Renames) (own : Nat) : Expr → List Change
  | .name _ q _ => q.changes renames own
  | x => x.changes renames own

/-- The expression with the new identifiers in its parts only. -/
def Expr.partsRenamed (renames : Renames) (own : Nat) : Expr → Expr
  | .name ident q level => .name ident (q.renamed renames own) level
  | .call callee args => .call (callee.calleeRenamed renames own) (argsRenamed renames own args)
  | x => x.renamed renames own

/-- What is done to the parts of an expression. -/
def Expr.partsChanges (renames : Renames) (own : Nat) : Expr → List Change
  | .name _ q _ => q.changes renames own
  | .call callee args => callee.calleeChanges renames own ++ argsChanges renames own args
  | x => x.changes renames own

/-- The names that are invoked in the parts of an expression. -/
def Expr.partsInvoked : Expr → List (String × Expr)
  | .call callee args => callee.invoked ++ invokedInArgs args
  | x => x.invoked

section

variable {place : Place} {within : Expr → Node} {x : Expr} {children : Walk RenameCounts Expr}

/-- An invocation of a name is renamed when its parts have been, wherever it stands. -/
theorem visitCall_renamed {callee : Expr} {args : List Expr}
    (hchildren : Walk.Does renames (own + 2) children (Expr.call callee args).partsInvoked
      (Expr.call callee args).Blocks ((Expr.call callee args).partsRenamed renames own)
      ((Expr.call callee args).partsChanges renames own)) :
    Walk.Does renames (own + 2)
      (visitExpr (renameVisitor renames) again place within (.call callee args) children)
      (Expr.call callee args).invoked (Expr.call callee args).Blocks
      ((Expr.call callee args).renamed renames own)
      ((Expr.call callee args).changes renames own) := by
  rcases callee.name_or_ne with ⟨ident, q, level, rfl⟩ | hcallee
  · exact visitAs_does (fun _ => rfl) hchildren (renameLeave_call place ident q level args)
  · have hparts : (Expr.call callee args).partsRenamed renames own =
        (Expr.call callee args).renamed renames own := by
      rw [Expr.renamed_call hcallee]
      cases callee with
      | name ident q level => exact absurd rfl (hcallee ident q level)
      | _ => rfl
    have hchanges : (Expr.call callee args).partsChanges renames own =
        (Expr.call callee args).changes renames own := by
      rw [Expr.changes_call hcallee]
      cases callee with
      | name ident q level => exact absurd rfl (hcallee ident q level)
      | _ => rfl
    rw [hparts, hchanges] at hchildren
    rw [Expr.invoked_call hcallee]
    refine visitAs_kept (fun _ => rfl) hchildren ?_
    rw [Expr.renamed_call hcallee]
    refine renameLeave_other place nofun ?_
    intro ident q level args' heq
    exact Expr.renamed_ne_name hcallee ident q level (Expr.call.inj heq).1

/-- What a visit gives when the parts have been renamed. -/
theorem visitExpr_renamed (hplace : place ≠ .callee)
    (hchildren : Walk.Does renames (own + 2) children x.partsInvoked x.Blocks
      (x.partsRenamed renames own) (x.partsChanges renames own)) :
    Walk.Does renames (own + 2) (visitExpr (renameVisitor renames) again place within x children)
      x.invoked x.Blocks (x.renamed renames own) (x.changes renames own) := by
  cases x with
  | absent => exact .pure _
  | name ident q level =>
    have hvisit : Walk.Does renames (own + 2) (visitExpr (renameVisitor renames) again place within
        (.name ident q level) children) _ _ _ _ :=
      visitAs_does (fun _ => rfl) hchildren (renameLeave_name hplace ident q level)
    rwa [List.append_nil] at hvisit
  | call => exact visitCall_renamed hchildren
  | _ => exact visitAs_kept (fun _ => rfl) hchildren rfl

theorem visitCallee_renamed
    (hchildren : Walk.Does renames (own + 2) children x.partsInvoked x.Blocks
      (x.partsRenamed renames own) (x.partsChanges renames own)) :
    Walk.Does renames (own + 2) (visitExpr (renameVisitor renames) again .callee within x children)
      x.invoked x.Blocks (x.calleeRenamed renames own) (x.calleeChanges renames own) := by
  cases x with
  | absent => exact .pure _
  | call => exact visitCall_renamed hchildren
  | _ => exact visitAs_kept (fun _ => rfl) hchildren rfl

end

/-! ## Section 6: The traversal -/

section

variable {depth : Nat} {place : Place} {within : Stmt → Node} {s : Stmt}
  {children : Walk RenameCounts Stmt}

theorem visitStmt_renamed
    (hchildren : Walk.Does renames depth children s.invoked s.Blocks (s.renamed renames own)
      (s.changes renames own)) :
    Walk.Does renames depth (visitStmt (renameVisitor renames) again place within s children)
      s.invoked s.Blocks (s.renamed renames own) (s.changes renames own) := by
  cases s with
  | absent => exact .pure _
  | _ => exact visitAs_kept (fun _ => rfl) hchildren rfl

/-- A function whose body is neither a block nor absent is not passed. -/
theorem visitBody_renamed
    (hchildren : Walk.Does renames depth children s.invoked s.Blocks (s.renamed renames own)
      (s.changes renames own)) :
    Walk.Does renames depth (visitBody (renameVisitor renames) again within s children) s.invoked
      (s.Blocks ∧ s.IsBody) (s.renamed renames own) (s.changes renames own) := by
  unfold visitBody
  have hvisit : Walk.Does renames depth (visitStmt (renameVisitor renames) again .functionBody within
      s children) _ _ _ _ := visitStmt_renamed hchildren
  cases s with
  | absent =>
    rw [Stmt.IsBody, and_true]
    exact hvisit.bind_pure (fun _ => .pure _) rfl
  | block =>
    rw [Stmt.IsBody, and_true]
    refine hvisit.bind_pure (fun t => ?_) rfl
    split
    · exact .pure _
    · exact .pure _
    · exact .bind (.halt _) fun _ => .pure _
  | _ =>
    refine hvisit.bind_halt (fun t => ?_) rfl
    split
    · exact .pure _
    · exact .pure _
    · exact .bind (.halt _) fun _ => .pure _

end

variable (renames own again)

mutual

theorem walkExpr_renamed (own : Nat) (x : Expr) :
    Walk.Does renames (own + 2) (walkExpr (renameVisitor renames) again x) x.partsInvoked x.Blocks
      (x.partsRenamed renames own) (x.partsChanges renames own) := by
  cases x with
  | name ident q level =>
    rw [walkExpr]
    exact (visitExpr_renamed (by simp) (walkExpr_renamed own q)).map (Expr.name ident · level)
  | call callee args =>
    rw [walkExpr]
    refine (visitCallee_renamed (walkExpr_renamed own callee)).bind (fun c => ?_) ?_
    · exact ((walkArgs_renamed own _ 0 args).map (Expr.call c)).halts
    · exact (walkArgs_renamed own _ 0 args).map (Expr.call _)
  | binary op x y =>
    rw [walkExpr]
    refine (visitExpr_renamed (by simp) (walkExpr_renamed own x)).bind (fun x' => ?_) ?_
    · exact ((visitExpr_renamed (by simp) (walkExpr_renamed own y)).map (Expr.binary op x')).halts
    · exact (visitExpr_renamed (by simp) (walkExpr_renamed own y)).map (Expr.binary op _)
  | unary op x =>
    rw [walkExpr]
    exact (visitExpr_renamed (by simp) (walkExpr_renamed own x)).map (Expr.unary op)
  | func f =>
    rw [walkExpr]
    refine .map Expr.func ?_
    exact visitAs_kept (fun _ => rfl) (walkFunction_renamed (own + 1) f) rfl
  | _ => exact .pure _

theorem walkArgs_renamed (own : Nat) (within : List Expr → Node) (i : Nat) (xs : List Expr) :
    Walk.Does renames (own + 2) (walkArgs (renameVisitor renames) again within i xs)
      (invokedInArgs xs) (ArgsBlocks xs) (argsRenamed renames own xs) (argsChanges renames own xs) := by
  cases xs with
  | nil => exact .pure _
  | cons x xs =>
    rw [walkArgs]
    refine (visitExpr_renamed (by simp) (walkExpr_renamed own x)).bind (fun y => ?_) ?_
    · exact ((walkArgs_renamed own _ (i + 1) xs).map (y :: ·)).halts
    · exact (walkArgs_renamed own _ (i + 1) xs).map (_ :: ·)

theorem walkStmt_renamed (own : Nat) (s : Stmt) :
    Walk.Does renames (own + 2) (walkStmt (renameVisitor renames) again s) s.invoked s.Blocks
      (s.renamed renames own) (s.changes renames own) := by
  cases s with
  | absent => exact .pure _
  | block ss =>
    rw [walkStmt]
    exact (walkStmts_renamed own _ 0 ss).map Stmt.block
  | expr x =>
    rw [walkStmt]
    exact (visitExpr_renamed (by simp) (walkExpr_renamed own x)).map Stmt.expr
  | ret x =>
    rw [walkStmt]
    exact (visitExpr_renamed (by simp) (walkExpr_renamed own x)).map Stmt.ret
  | var ds =>
    rw [walkStmt]
    exact (walkDecls_renamed own _ 0 ds).map Stmt.var
  | cond test yes no =>
    rw [walkStmt]
    have hno : ∀ test' yes', Walk.Does renames (own + 2) (do
        return Stmt.cond test' yes' (← visitStmt (renameVisitor renames) again .condNo
          (fun no => .stmt (.cond test' yes' no)) no (walkStmt (renameVisitor renames) again no)))
        _ _ _ _ := fun test' yes' => (visitStmt_renamed (walkStmt_renamed own no)).map _
    refine (visitExpr_renamed (by simp) (walkExpr_renamed own test)).bind (fun test' => ?_) ?_
    · exact ((visitStmt_renamed (walkStmt_renamed own yes)).bind (fun yes' => (hno test' yes').halts)
        (hno test' _)).halts
    · exact (visitStmt_renamed (walkStmt_renamed own yes)).bind (fun yes' => (hno _ yes').halts)
        (hno _ _)

theorem walkStmts_renamed (own : Nat) (within : List Stmt → Node) (i : Nat) (ss : List Stmt) :
    Walk.Does renames (own + 2) (walkStmts (renameVisitor renames) again within i ss)
      (invokedInStmts ss) (StmtsBlocks ss) (stmtsRenamed renames own ss)
      (stmtsChanges renames own ss) := by
  cases ss with
  | nil => exact .pure _
  | cons s ss =>
    rw [walkStmts]
    refine (visitStmt_renamed (walkStmt_renamed own s)).bind (fun t => ?_) ?_
    · exact ((walkStmts_renamed own _ (i + 1) ss).map (t :: ·)).halts
    · exact (walkStmts_renamed own _ (i + 1) ss).map (_ :: ·)

theorem walkDecl_renamed (own : Nat) (d : Decl) :
    Walk.Does renames (own + 2) (walkDecl (renameVisitor renames) again d) d.invoked d.Blocks
      (d.renamed renames own) (d.changes renames own) := by
  cases d with
  | mk name init =>
    rw [walkDecl]
    exact (visitExpr_renamed (by simp) (walkExpr_renamed own init)).map (Decl.mk name)

theorem walkDecls_renamed (own : Nat) (within : List Decl → Node) (i : Nat) (ds : List Decl) :
    Walk.Does renames (own + 2) (walkDecls (renameVisitor renames) again within i ds)
      (invokedInDecls ds) (DeclsBlocks ds) (declsRenamed renames own ds)
      (declsChanges renames own ds) := by
  cases ds with
  | nil => exact .pure _
  | cons d ds =>
    rw [walkDecls]
    refine .bind (visitAs_kept (fun _ => rfl) (walkDecl_renamed own d) rfl) (fun e => ?_) ?_
    · exact ((walkDecls_renamed own _ (i + 1) ds).map (e :: ·)).halts
    · exact (walkDecls_renamed own _ (i + 1) ds).map (_ :: ·)

/-- From outside, the changes in a function are those that leave its scope. -/
theorem walkFunction_renamed (own : Nat) (f : Function) :
    Walk.Does renames (own + 1) (walkFunction (renameVisitor renames) again f) f.invoked f.Blocks
      (f.renamed renames own) ((f.changes renames own).map Change.outward) := by
  cases f with
  | mk name params names body =>
    have hbody : Walk.Does renames (own + 2) (visitBody (renameVisitor renames) again
        (fun b => .function (.mk name params names b)) body
        (walkStmt (renameVisitor renames) again body)) _ _ _ _ :=
      visitBody_renamed (walkStmt_renamed own body)
    have hrun : ∀ s, (walkFunction (renameVisitor renames) again
        (.mk name params names body)).run s =
        (fun r => (Function.mk name params (r.2.scopes.headD []) r.1,
          { r.2 with scopes := r.2.scopes.tail }))
        ((visitBody (renameVisitor renames) again (fun b => .function (.mk name params names b)) body
          (walkStmt (renameVisitor renames) again body)).run (Change.within names s)) := by
      intro s
      rw [walkFunction]
      rfl
    refine ⟨?_, ?_, ?_⟩
    · intro s fault hs
      rw [hrun]
      exact hbody.halts (Change.within names s) fault hs
    · intro hsettled hblocks s hs hdepth
      rw [hrun, hbody.done hsettled hblocks (Change.within names s) hs (congrArg (· + 1) hdepth),
        Change.foldl_apply_within]
      rfl
    · intro hnot s hs hdepth
      rw [hrun]
      exact hbody.stops hnot (Change.within names s) hs (congrArg (· + 1) hdepth)

end

end

/-! ## Section 7: Whole fragments -/

section

variable {renames : Renames} {f : Function} (globals : List String)

theorem walk_renamed (f : Function) : Walk.Does renames 1
    (walk (renameVisitor renames) 0 (.function f)) f.invoked f.Blocks
    (.function (f.renamed renames 0)) ((f.changes renames 0).map Change.outward) :=
  visit_kept ((walkFunction_renamed renames _ 0 f).map Node.function) rfl

/-- A fragment in whose way nothing stands is renamed as the rule says. -/
theorem rename_of_safe (h : f.Safe renames) :
    (f.rename renames globals).node = .function (f.renamed renames 0) ∧
      (f.rename renames globals).scopes = [f.globalsRenamed renames globals] ∧
      (f.rename renames globals).fault = none := by
  have hdone := (walk_renamed f).done h.1 h.2 (Change.within globals ⟨{}, [], none⟩) rfl rfl
  have hrename : f.rename renames globals = (fun r => ⟨r.1, r.2.user, r.2.scopes, r.2.fault⟩)
      ((walk (renameVisitor renames) 0 (.function f)).run
        (Change.within globals ⟨{}, [], none⟩)) := rfl
  rw [hrename, hdone, Change.foldl_apply_within]
  refine ⟨rfl, ?_, ?_⟩
  · -- there is no scope around the root
    refine congrArg (_ :: ·) (List.eq_nil_of_length_eq_zero ?_)
    exact Change.length_scopes_foldl_apply ..
  · exact Change.fault_foldl_apply ..

/-- Any other fragment is not passed. -/
theorem rename_of_not_safe (h : ¬f.Safe renames) :
    ∃ fault, (f.rename renames globals).fault = some fault ∧
      (f.Blocks → fault.category = .invariant) :=
  (walk_renamed f).stops h ⟨{}, [globals], none⟩ rfl rfl

end

end DefaultLowering.Fragment
