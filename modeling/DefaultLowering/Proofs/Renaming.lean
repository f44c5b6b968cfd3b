import DefaultLowering.Fragment.Binding
import DefaultLowering.Lowering.Retarget
import DefaultLowering.Proofs.Parts
import Mathlib.Data.List.Basic

/-!
# Renamed fragments

The rule by which lowering changes a fragment, said on whole trees: a member reference that has a new
identifier takes it and loses its qualifier, and if it is invoked, the qualifier goes in front of the
arguments.  Everything else is kept.

The callee of a renamed invocation becomes a name that some scope declares, the scope of the first
resolved name in the chain of its qualifiers.  So the rule also says where new names are declared.

- `Function.renamed`: the rule;
- `Function.changes`: what is done on the way, in the order of the traversal;
- `Function.Safe`: the fragments that can be renamed;
- `Function.body_renamed_withReceiver`: renaming and adding the receiver can be exchanged.
-/

namespace DefaultLowering.Fragment

/-! ## Section 1: The rule -/

/-- One thing that renaming does. -/
inductive Change where
  /-- A reference that is not invoked takes its new identifier. -/
  | reference
  /-- An invocation takes its new identifier.  It is declared in the scope `level` steps outward from
      the tree, or in a scope inside of the tree. -/
  | invocation (level : Option Nat) (ident : String)

namespace Change

/-- The change as it is seen from outside of the innermost scope. -/
def outward : Change → Change
  | reference => reference
  | invocation none ident => invocation none ident
  | invocation (some 0) ident => invocation none ident
  | invocation (some (level + 1)) ident => invocation (some level) ident

/-- What the innermost scope declares after the change. -/
def inner (names : List String) : Change → List String
  | invocation (some 0) ident => declare ident names
  | _ => names

end Change

section

variable (renames : Renames)

/-- The level of the scope to which an invocation through this qualifier belongs: that of the first
    resolved name in the chain of qualifiers, or `own`, the level of the outermost function, for
    `this`.  A renamed reference has lost its qualifiers, so that a chain ends there. -/
def Expr.rootLevel (own : Nat) : Expr → Option Nat
  | .this => some own
  | .name ident q level =>
    match renames.lookup ident, level with
    | some _, _ => none
    | none, some level => some level
    | none, none => q.rootLevel own
  | _ => none

/-- The change made to a name that is not invoked. -/
def nameChanges (ident : String) : List Change :=
  match renames.lookup ident with
  | some _ => [.reference]
  | none => []

/-- The change made to the invocation of a name. -/
def callChanges (own : Nat) (ident : String) (q : Expr) : List Change :=
  match renames.lookup ident with
  | some new => [.invocation (q.rootLevel renames own) new]
  | none => []

mutual

/-- What is done to an expression, in order. -/
def Expr.changes (own : Nat) : Expr → List Change
  | .absent => []
  | .name ident q _ => q.changes own ++ nameChanges renames ident
  | .call callee args =>
    match callee with
    | .name ident q _ =>
      (q.changes own ++ argsChanges own args) ++ callChanges renames own ident q
    | callee => callee.changes own ++ argsChanges own args
  | .this => []
  | .literal _ => []
  | .binary _ x y => x.changes own ++ y.changes own
  | .unary _ x => x.changes own
  | .func f => (f.changes (own + 1)).map Change.outward

def argsChanges (own : Nat) : List Expr → List Change
  | [] => []
  | x :: xs => x.changes own ++ argsChanges own xs

def Stmt.changes (own : Nat) : Stmt → List Change
  | .absent => []
  | .block ss => stmtsChanges own ss
  | .expr x => x.changes own
  | .ret x => x.changes own
  | .var ds => declsChanges own ds
  | .cond test yes no => test.changes own ++ (yes.changes own ++ no.changes own)

def stmtsChanges (own : Nat) : List Stmt → List Change
  | [] => []
  | s :: ss => s.changes own ++ stmtsChanges own ss

def Decl.changes (own : Nat) : Decl → List Change
  | .mk _ init => init.changes own

def declsChanges (own : Nat) : List Decl → List Change
  | [] => []
  | d :: ds => d.changes own ++ declsChanges own ds

/-- What is done in the body of a function, as it is seen from there. -/
def Function.changes (own : Nat) : Function → List Change
  | .mk _ _ _ body => body.changes own

end

mutual

/-- The expression with the new identifiers.  The scope of the outermost function lies `own` steps
    outward. -/
def Expr.renamed (own : Nat) : Expr → Expr
  | .absent => .absent
  | .name ident q level =>
    match renames.lookup ident with
    | some new => .name new .absent none
    | none => .name ident (q.renamed own) level
  | .call callee args =>
    match callee with
    | .name ident q level =>
      match renames.lookup ident with
      | some new =>
        .call (.name new .absent (q.rootLevel renames own)) (q.renamed own :: argsRenamed own args)
      | none => .call (.name ident (q.renamed own) level) (argsRenamed own args)
    | callee => .call (callee.renamed own) (argsRenamed own args)
  | .this => .this
  | .literal text => .literal text
  | .binary op x y => .binary op (x.renamed own) (y.renamed own)
  | .unary op x => .unary op (x.renamed own)
  | .func f => .func (f.renamed (own + 1))

def argsRenamed (own : Nat) : List Expr → List Expr
  | [] => []
  | x :: xs => x.renamed own :: argsRenamed own xs

def Stmt.renamed (own : Nat) : Stmt → Stmt
  | .absent => .absent
  | .block ss => .block (stmtsRenamed own ss)
  | .expr x => .expr (x.renamed own)
  | .ret x => .ret (x.renamed own)
  | .var ds => .var (declsRenamed own ds)
  | .cond test yes no => .cond (test.renamed own) (yes.renamed own) (no.renamed own)

def stmtsRenamed (own : Nat) : List Stmt → List Stmt
  | [] => []
  | s :: ss => s.renamed own :: stmtsRenamed own ss

def Decl.renamed (own : Nat) : Decl → Decl
  | .mk name init => .mk name (init.renamed own)

def declsRenamed (own : Nat) : List Decl → List Decl
  | [] => []
  | d :: ds => d.renamed own :: declsRenamed own ds

/-- The function with the new identifiers.  Its scope declares those that belong to it. -/
def Function.renamed (own : Nat) : Function → Function
  | .mk name params names body =>
    .mk name params ((body.changes renames own).foldl Change.inner names) (body.renamed own)

end

/-- What the root declares when a function that stands in it has been renamed. -/
def Function.globalsRenamed (globals : List String) (f : Function) : List String :=
  ((f.changes renames 0).map Change.outward).foldl Change.inner globals

end

/-! ## Section 2: Fragments that can be renamed -/

mutual

/-- The names that are invoked in an expression, each with its qualifier. -/
def Expr.invoked : Expr → List (String × Expr)
  | .absent => []
  | .name _ q _ => q.invoked
  | .call callee args =>
    match callee with
    | .name ident q _ => (q.invoked ++ invokedInArgs args) ++ [(ident, q)]
    | callee => callee.invoked ++ invokedInArgs args
  | .this => []
  | .literal _ => []
  | .binary _ x y => x.invoked ++ y.invoked
  | .unary _ x => x.invoked
  | .func f => f.invoked

def invokedInArgs : List Expr → List (String × Expr)
  | [] => []
  | x :: xs => x.invoked ++ invokedInArgs xs

def Stmt.invoked : Stmt → List (String × Expr)
  | .absent => []
  | .block ss => invokedInStmts ss
  | .expr x => x.invoked
  | .ret x => x.invoked
  | .var ds => invokedInDecls ds
  | .cond test yes no => test.invoked ++ (yes.invoked ++ no.invoked)

def invokedInStmts : List Stmt → List (String × Expr)
  | [] => []
  | s :: ss => s.invoked ++ invokedInStmts ss

def Decl.invoked : Decl → List (String × Expr)
  | .mk _ init => init.invoked

def invokedInDecls : List Decl → List (String × Expr)
  | [] => []
  | d :: ds => d.invoked ++ invokedInDecls ds

def Function.invoked : Function → List (String × Expr)
  | .mk _ _ _ body => body.invoked

end

/-- A statement that may be the body of a function. -/
def Stmt.IsBody : Stmt → Prop
  | .absent => True
  | .block _ => True
  | _ => False

mutual

/-- The bodies of all functions in an expression are blocks, or absent. -/
def Expr.Blocks : Expr → Prop
  | .absent => True
  | .name _ q _ => q.Blocks
  | .call callee args => callee.Blocks ∧ ArgsBlocks args
  | .this => True
  | .literal _ => True
  | .binary _ x y => x.Blocks ∧ y.Blocks
  | .unary _ x => x.Blocks
  | .func f => f.Blocks

def ArgsBlocks : List Expr → Prop
  | [] => True
  | x :: xs => x.Blocks ∧ ArgsBlocks xs

def Stmt.Blocks : Stmt → Prop
  | .absent => True
  | .block ss => StmtsBlocks ss
  | .expr x => x.Blocks
  | .ret x => x.Blocks
  | .var ds => DeclsBlocks ds
  | .cond test yes no => test.Blocks ∧ yes.Blocks ∧ no.Blocks

def StmtsBlocks : List Stmt → Prop
  | [] => True
  | s :: ss => s.Blocks ∧ StmtsBlocks ss

def Decl.Blocks : Decl → Prop
  | .mk _ init => init.Blocks

def DeclsBlocks : List Decl → Prop
  | [] => True
  | d :: ds => d.Blocks ∧ DeclsBlocks ds

def Function.Blocks : Function → Prop
  | .mk _ _ _ body => body.Blocks ∧ body.IsBody

end

/-- Every renamed invocation belongs to some scope. -/
def Settled (renames : Renames) (invoked : List (String × Expr)) : Prop :=
  ∀ c ∈ invoked, (renames.lookup c.1).isSome = true → (c.2.rootLevel renames 0).isSome = true

/-- Nothing stands in the way of renaming a function. -/
def Function.Safe (renames : Renames) (f : Function) : Prop :=
  Settled renames f.invoked ∧ f.Blocks

theorem settled_append {renames : Renames} {cs cs' : List (String × Expr)} :
    Settled renames (cs ++ cs') ↔ Settled renames cs ∧ Settled renames cs' :=
  List.forall_mem_append

/-- Whether a scope is found does not depend on how deep the invocation stands. -/
theorem Expr.isSome_rootLevel (renames : Renames) (own own' : Nat) (x : Expr) :
    (x.rootLevel renames own).isSome = (x.rootLevel renames own').isSome := by
  cases x with
  | name ident q =>
    simp only [Expr.rootLevel]
    split
    · rfl
    · rfl
    · exact q.isSome_rootLevel renames own own'
  | _ => rfl

/-- Renaming treats a callee that is a name on its own. -/
theorem Expr.name_or_ne (x : Expr) :
    (∃ ident q level, x = .name ident q level) ∨ ∀ ident q level, x ≠ .name ident q level := by
  cases x with
  | name ident q level => exact .inl ⟨ident, q, level, rfl⟩
  | _ => exact .inr fun _ _ _ => Expr.noConfusion

section

variable {renames : Renames} {own : Nat} {callee : Expr} {args : List Expr}
  (h : ∀ ident q level, callee ≠ .name ident q level)

include h

theorem Expr.renamed_call : (Expr.call callee args).renamed renames own =
    .call (callee.renamed renames own) (argsRenamed renames own args) := by
  cases callee with
  | name ident q level => exact absurd rfl (h ident q level)
  | _ => rfl

theorem Expr.changes_call : (Expr.call callee args).changes renames own =
    callee.changes renames own ++ argsChanges renames own args := by
  cases callee with
  | name ident q level => exact absurd rfl (h ident q level)
  | _ => rfl

theorem Expr.invoked_call :
    (Expr.call callee args).invoked = callee.invoked ++ invokedInArgs args := by
  cases callee with
  | name ident q level => exact absurd rfl (h ident q level)
  | _ => rfl

theorem Expr.renamed_ne_name (ident : String) (q : Expr) (level : Option Nat) :
    callee.renamed renames own ≠ .name ident q level := by
  cases callee with
  | name ident q level => exact absurd rfl (h ident q level)
  | call callee =>
    rcases callee.name_or_ne with ⟨ident', q', level', rfl⟩ | hcallee
    · simp only [Expr.renamed]
      split <;> exact Expr.noConfusion
    · rw [Expr.renamed_call hcallee]
      exact Expr.noConfusion
  | _ => exact Expr.noConfusion

end

/-! ## Section 3: The identifiers of a renamed tree -/

section

variable (renames : Renames) (own : Nat)

def Part.idents : Part → List String
  | .expr x => x.idents
  | .args xs => identsOfArgs xs
  | .stmt s => s.idents
  | .stmts ss => identsOfStmts ss
  | .decls ds => identsOfDecls ds
  | .function f => f.idents

def Part.renamed : Part → Part
  | .expr x => .expr (x.renamed renames own)
  | .args xs => .args (argsRenamed renames own xs)
  | .stmt s => .stmt (s.renamed renames own)
  | .stmts ss => .stmts (stmtsRenamed renames own ss)
  | .decls ds => .decls (declsRenamed renames own ds)
  | .function f => .function (f.renamed renames own)

def Part.changes : Part → List Change
  | .expr x => x.changes renames own
  | .args xs => argsChanges renames own xs
  | .stmt s => s.changes renames own
  | .stmts ss => stmtsChanges renames own ss
  | .decls ds => declsChanges renames own ds
  | .function f => f.changes renames own

end

/-- The new identifiers are those that the renames give to old ones, and old ones without rename. -/
def Traced (renames : Renames) (old new : List String) : Prop :=
  ∀ e ∈ new, (∃ o ∈ old, renames.lookup o = some e) ∨ (e ∈ old ∧ renames.lookup e = none)

namespace Traced

variable {renames : Renames} {old new old' new' : List String}

theorem nil : Traced renames old [] := by
  intro e he
  cases he

theorem append (h : Traced renames old new) (h' : Traced renames old' new') :
    Traced renames (old ++ old') (new ++ new') := by
  intro e he
  rcases List.mem_append.mp he with he | he
  · rcases h e he with ⟨o, ho, hlookup⟩ | ⟨ho, hlookup⟩
    · exact .inl ⟨o, List.mem_append_left _ ho, hlookup⟩
    · exact .inr ⟨List.mem_append_left _ ho, hlookup⟩
  · rcases h' e he with ⟨o, ho, hlookup⟩ | ⟨ho, hlookup⟩
    · exact .inl ⟨o, List.mem_append_right _ ho, hlookup⟩
    · exact .inr ⟨List.mem_append_right _ ho, hlookup⟩

theorem renamed {ident e : String} (h : renames.lookup ident = some e) :
    Traced renames [ident] [e] := by
  intro e' he'
  rw [List.mem_singleton] at he'
  exact .inl ⟨ident, List.mem_singleton_self _, he' ▸ h⟩

theorem kept {ident : String} (h : renames.lookup ident = none) :
    Traced renames [ident] [ident] := by
  intro e he
  rw [List.mem_singleton] at he
  exact .inr ⟨he ▸ List.mem_singleton_self _, he ▸ h⟩

end Traced

theorem Part.traced_renamed (renames : Renames) (own : Nat) (a : Part) :
    Traced renames a.idents (a.renamed renames own).idents := by
  induction a using Part.induct generalizing own with
  | absent | this | literal | noArgs | absentStmt | noStmts | noDecls => exact .nil
  | name ident q level ih =>
    simp only [Part.idents, Part.renamed, Expr.renamed]
    cases hnew : renames.lookup ident with
    | some => exact (Traced.renamed hnew).append .nil
    | none => exact (Traced.kept hnew).append (ih own)
  | invoke ident q level xs ihq ihxs =>
    simp only [Part.idents, Part.renamed, Expr.renamed]
    cases hnew : renames.lookup ident with
    | some =>
      have hall := (Traced.renamed hnew).append ((ihq own).append (ihxs own))
      simpa [Part.idents, Part.renamed, Expr.idents, identsOfArgs] using hall
    | none =>
      have hall := (Traced.kept hnew).append ((ihq own).append (ihxs own))
      simpa [Part.idents, Part.renamed, Expr.idents] using hall
  | call x xs hx ihx ihxs =>
    rw [Part.renamed, Expr.renamed_call hx]
    exact (ihx own).append (ihxs own)
  | binary _ _ _ ih ih' | moreArgs _ _ ih ih' | moreStmts _ _ ih ih' | moreDecls _ _ _ ih ih' =>
    exact (ih own).append (ih' own)
  | func f ih => exact ih (own + 1)
  | unary _ _ ih | block _ ih | exprStmt _ ih | ret _ ih | var _ ih | function _ _ _ _ ih => exact ih own
  | cond x s t ihx ihs iht => exact ((ihx own).append (ihs own)).append (iht own)

/-- A renamed function refers to the members that the renames name, and to those that have none. -/
theorem Function.memberIdents_renamed {f : Function} {renames : Renames} {own : Nat}
    {e : String} (he : e ∈ (f.renamed renames own).memberIdents) :
    (∃ o ∈ f.idents, renames.lookup o = some e) ∨
      (e ∈ f.memberIdents ∧ renames.lookup e = none) := by
  obtain ⟨hidents, hmember⟩ := List.mem_filter.mp he
  rcases Part.traced_renamed renames own (.function f) e hidents with hold | ⟨hold, hnone⟩
  · exact .inl hold
  · exact .inr ⟨List.mem_filter.mpr ⟨hold, hmember⟩, hnone⟩

theorem Function.params_renamed (renames : Renames) (own : Nat) (f : Function) :
    (f.renamed renames own).params = f.params := by
  cases f
  rfl

/-! ## Section 4: The receiver parameter -/

/-- The part of a function body that reads the receiver.  Functions that stand in it are kept. -/
def Part.readingReceiver : Part → Part
  | .expr x => .expr x.readingReceiver
  | .args xs => .args (argsReadingReceiver xs)
  | .stmt s => .stmt s.readingReceiver
  | .stmts ss => .stmts (stmtsReadingReceiver ss)
  | .decls ds => .decls (ds.map Decl.readingReceiver)
  | .function f => .function f

def Part.invoked : Part → List (String × Expr)
  | .expr x => x.invoked
  | .args xs => invokedInArgs xs
  | .stmt s => s.invoked
  | .stmts ss => invokedInStmts ss
  | .decls ds => invokedInDecls ds
  | .function f => f.invoked

def Part.Blocks : Part → Prop
  | .expr x => x.Blocks
  | .args xs => ArgsBlocks xs
  | .stmt s => s.Blocks
  | .stmts ss => StmtsBlocks ss
  | .decls ds => DeclsBlocks ds
  | .function f => f.Blocks

theorem Part.members_readingReceiver (a : Part) :
    a.readingReceiver.idents.filter isMemberIdent = a.idents.filter isMemberIdent := by
  induction a using Part.induct with
  | this =>
    -- the receiver parameter is a name of the script, not of a member
    have hname : isMemberIdent receiverParam = false := by decide
    simp [Part.readingReceiver, Part.idents, Expr.readingReceiver, Expr.idents, hname]
  | _ =>
    simp_all [Part.readingReceiver, Part.idents, Expr.readingReceiver, argsReadingReceiver,
      Stmt.readingReceiver, stmtsReadingReceiver, Decl.readingReceiver, Expr.idents, identsOfArgs,
      Stmt.idents, identsOfStmts, identsOfDecls, List.filter_cons]

theorem Function.memberIdents_withReceiver (f : Function) :
    f.withReceiver.memberIdents = f.memberIdents := by
  cases f with
  | mk name params names body => exact Part.members_readingReceiver (.stmt body)

theorem Function.params_withReceiver (f : Function) :
    f.withReceiver.params = receiverParam :: f.params := by
  cases f
  rfl

theorem Part.blocks_readingReceiver (a : Part) : a.readingReceiver.Blocks ↔ a.Blocks := by
  induction a using Part.induct with
  | _ =>
    simp_all [Part.readingReceiver, Part.Blocks, Expr.readingReceiver, argsReadingReceiver,
      Stmt.readingReceiver, stmtsReadingReceiver, Decl.readingReceiver, Expr.Blocks, ArgsBlocks,
      Stmt.Blocks, StmtsBlocks, Decl.Blocks, DeclsBlocks]

/-! ## Section 5: Renaming with the receiver -/

section

variable {renames : Renames} (h : renames.lookup receiverParam = none)

include h

/-- The receiver parameter belongs to the scope of the outermost function, as `this` does. -/
theorem Expr.rootLevel_readingReceiver (x : Expr) :
    x.readingReceiver.rootLevel renames 0 = x.rootLevel renames 0 := by
  cases x with
  | this => simp only [Expr.readingReceiver, Expr.rootLevel, h]
  | name ident q =>
    simp only [Expr.readingReceiver, Expr.rootLevel, Expr.rootLevel_readingReceiver q]
  | _ => rfl

/-- The same is done to a part that reads the receiver. -/
theorem Part.changes_readingReceiver (a : Part) :
    a.readingReceiver.changes renames 0 = a.changes renames 0 := by
  induction a using Part.induct with
  | call x xs hx ihx ihxs =>
    cases x with
    | name ident q level => exact absurd rfl (hx ident q level)
    | this =>
      -- an invoked `this` becomes the invocation of a name, which has no rename
      simp_all only [Part.readingReceiver, Part.changes, Expr.readingReceiver, Expr.changes, callChanges,
        List.append_nil]
    | _ => exact congrArg₂ (· ++ ·) ihx ihxs
  | _ =>
    simp_all [Part.readingReceiver, Part.changes, Expr.readingReceiver, argsReadingReceiver,
      Stmt.readingReceiver, stmtsReadingReceiver, Decl.readingReceiver, Expr.changes, nameChanges,
      callChanges, Expr.rootLevel_readingReceiver h, argsChanges, Stmt.changes, stmtsChanges,
      declsChanges, Decl.changes, -List.lookup_eq_none_iff]

/-- Renaming and reading the receiver can be exchanged. -/
theorem Part.renamed_readingReceiver (a : Part) :
    a.readingReceiver.renamed renames 0 = (a.renamed renames 0).readingReceiver := by
  induction a using Part.induct with
  | name ident =>
    cases hnew : renames.lookup ident <;> simp_all only [Part.readingReceiver, Part.renamed,
      Expr.readingReceiver, Expr.renamed, Part.expr.injEq]
  | invoke ident =>
    cases hnew : renames.lookup ident <;> simp_all only [Part.readingReceiver, Part.renamed,
      Expr.readingReceiver, argsReadingReceiver, Expr.renamed, Expr.rootLevel_readingReceiver h,
      Part.expr.injEq, Part.args.injEq]
  | call x xs hx =>
    cases x with
    | name ident q level => exact absurd rfl (hx ident q level)
    | _ =>
      simp_all [Part.readingReceiver, Part.renamed, Expr.readingReceiver, Expr.renamed,
        -List.lookup_eq_none_iff]
  | _ =>
    simp_all [Part.readingReceiver, Part.renamed, Expr.readingReceiver, argsReadingReceiver,
      Stmt.readingReceiver, stmtsReadingReceiver, Decl.readingReceiver, Expr.renamed, argsRenamed,
      Stmt.renamed, stmtsRenamed, declsRenamed, Decl.renamed, -List.lookup_eq_none_iff]

/-- Reading the receiver settles nothing and unsettles nothing. -/
theorem Part.settled_readingReceiver (a : Part) :
    Settled renames a.readingReceiver.invoked ↔ Settled renames a.invoked := by
  induction a using Part.induct with
  | invoke ident q level xs ihq ihxs =>
    have hlast : Settled renames [(ident, q.readingReceiver)] ↔ Settled renames [(ident, q)] := by
      simp only [Settled, List.forall_mem_singleton, Expr.rootLevel_readingReceiver h q]
    exact settled_append.trans ((and_congr (settled_append.trans ((and_congr ihq ihxs).trans
      settled_append.symm)) hlast).trans settled_append.symm)
  | call x xs hx ihx ihxs =>
    cases x with
    | name ident q level => exact absurd rfl (hx ident q level)
    | this =>
      have hreceiver : Settled renames [(receiverParam, .absent)] := by
        rw [Settled, List.forall_mem_singleton, h]
        exact nofun
      simp_all [Part.readingReceiver, Part.invoked, Expr.readingReceiver, Expr.invoked, settled_append]
    | _ => exact settled_append.trans ((and_congr ihx ihxs).trans settled_append.symm)
  | _ =>
    simp_all [Part.readingReceiver, Part.invoked, Expr.readingReceiver, argsReadingReceiver,
      Stmt.readingReceiver, stmtsReadingReceiver, Decl.readingReceiver, Expr.invoked, invokedInArgs,
      Stmt.invoked, invokedInStmts, invokedInDecls, Decl.invoked, settled_append]

/-- A function can be renamed with the receiver if and only if it can be without. -/
theorem Function.safe_withReceiver (f : Function) :
    f.withReceiver.Safe renames ↔ f.Safe renames := by
  cases f with
  | mk name params names body =>
    have hbody : body.readingReceiver.IsBody ↔ body.IsBody := by
      cases body <;> exact Iff.rfl
    exact and_congr (Part.settled_readingReceiver h (.stmt body))
      (and_congr (Part.blocks_readingReceiver (.stmt body)) hbody)

/-- Renaming and adding the receiver can be exchanged. -/
theorem Function.body_renamed_withReceiver (f : Function) :
    (f.withReceiver.renamed renames 0).body = (f.renamed renames 0).withReceiver.body := by
  cases f with
  | mk name params names body => exact Part.stmt.inj (Part.renamed_readingReceiver h (.stmt body))

end

/-! ## Section 6: Functions as trees -/

/-- The functions are the same, but for the names that their own scopes declare. -/
structure Function.SameTree (f g : Function) : Prop where
  name : f.name = g.name
  params : f.params = g.params
  body : f.body = g.body

namespace Function.SameTree

variable {f g : Function} {renames : Renames}

theorem refl (f : Function) : f.SameTree f := ⟨rfl, rfl, rfl⟩

theorem trans {k : Function} (h : f.SameTree g) (h' : g.SameTree k) : f.SameTree k :=
  ⟨h.name.trans h'.name, h.params.trans h'.params, h.body.trans h'.body⟩

theorem renamed (h : f.SameTree g) : (f.renamed renames 0).SameTree (g.renamed renames 0) := by
  cases f
  cases g
  exact ⟨h.name, h.params, congrArg (Stmt.renamed renames 0) h.body⟩

theorem withReceiver (h : f.SameTree g) : f.withReceiver.SameTree g.withReceiver := by
  cases f
  cases g
  exact ⟨h.name, congrArg (receiverParam :: ·) h.params, congrArg Stmt.readingReceiver h.body⟩

theorem safe (h : f.SameTree g) : f.Safe renames ↔ g.Safe renames := by
  cases f with
  | mk name params names body =>
    cases g with
    | mk name' params' names' body' =>
      have hbody : body = body' := h.body
      subst hbody
      exact Iff.rfl

/-- Renaming and adding the receiver can be exchanged. -/
theorem exchange (h : renames.lookup receiverParam = none) (f : Function) :
    (f.withReceiver.renamed renames 0).SameTree (f.renamed renames 0).withReceiver := by
  refine ⟨?_, ?_, f.body_renamed_withReceiver h⟩
  · cases f
    rfl
  · rw [f.withReceiver.params_renamed, f.params_withReceiver, params_withReceiver, f.params_renamed]

end Function.SameTree

/-! ## Section 7: Nothing to rename -/

/-- Without renames nothing is done. -/
theorem Part.renamed_nil (own : Nat) (a : Part) : a.renamed [] own = a ∧ a.changes [] own = [] := by
  induction a using Part.induct generalizing own with
  | call x xs hx =>
    simp_all [Part.renamed, Part.changes, Expr.renamed_call hx, Expr.changes_call hx]
  | _ =>
    simp_all [Part.renamed, Part.changes, Expr.renamed, Expr.changes, nameChanges, callChanges,
      argsRenamed, argsChanges, Stmt.renamed, Stmt.changes, stmtsRenamed, stmtsChanges, Decl.renamed,
      Decl.changes, declsRenamed, declsChanges, Function.renamed, Function.changes]

end DefaultLowering.Fragment
