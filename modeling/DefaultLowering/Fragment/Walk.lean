import DefaultLowering.Fault
import DefaultLowering.Fragment.Tree

/-!
# Traversal of fragments

A traversal visits a tree depth first.  `enter` sees a node before its children and may replace it or
skip what is below it; `leave` sees it after its children and may replace it.  Where a node stands is
given by its `Slot`.  A replacement made by `leave` is not visited.

A traversal keeps two things beside the visitor's own state: the names declared by the scopes around
the node, from the inside outward, to which a visitor may add, and a fault.  Once there is a fault the
rest of the tree is left as it is, and so are the changes made before it.
-/

namespace DefaultLowering.Fragment

/-! ## Places -/

/-- The place of a node in its parent. -/
inductive Place where
  | root
  | functionBody
  | blockStmt (index : Nat)
  | exprStmt
  | returned
  | varDecl (index : Nat)
  | declInit
  | condTest
  | condYes
  | condNo
  | qualifier
  | callee
  | argument (index : Nat)
  | left
  | right
  | operand
  | funcLiteral
  deriving DecidableEq, Repr, Inhabited

/-- The place of a node and its parent, none at the root.  The parent is as it is at that moment, with
    what has become of the nodes in front.  A function has the names with which it was entered; what its
    scope declares by now is in the scopes of the traversal. -/
structure Slot where
  place : Place
  holder : Option Node

namespace Slot

/-- The kind of the parent. -/
def parent (slot : Slot) : Option Kind := slot.holder.bind Node.kind

/-- The name of the place. -/
def field (slot : Slot) : String :=
  match slot.place with
  | .root => ""
  | .functionBody => "Body"
  | .blockStmt _ => "Stmts"
  | .exprStmt | .returned | .left | .operand => "X"
  | .varDecl _ => "Decls"
  | .declInit => "Init"
  | .condTest => "Cond"
  | .condYes => "Then"
  | .condNo => "Else"
  | .qualifier => "Qualifier"
  | .callee => "Callee"
  | .argument _ => "Args"
  | .right => "Y"
  | .funcLiteral => "Func"

/-- The index in a list, none outside lists. -/
def index (slot : Slot) : Option Nat :=
  match slot.place with
  | .blockStmt i | .varDecl i | .argument i => some i
  | _ => none

end Slot

/-! ## Visitors -/

/-- What a traversal carries along. -/
structure WalkState (σ : Type) where
  /-- The visitor's own state. -/
  user : σ
  /-- What the scopes around the current node declare, from the inside outward. -/
  scopes : Scopes
  fault : Option Fault

/-- A step of a traversal. -/
abbrev Walk (σ : Type) := StateM (WalkState σ)

/-- What `enter` decides about a node. -/
structure Entry where
  /-- The node to go on with in place of the one seen. -/
  replacement : Option Node := none
  /-- Go on to the children, and to `leave`. -/
  descend : Bool := true

/-- The two functions of a traversal. -/
structure Visitor (σ : Type) where
  enter : Slot → Node → Walk σ Entry
  leave : Slot → Node → Walk σ Node

namespace Walk

variable {σ : Type}

/-- A fault has stopped the traversal. -/
def halted : Walk σ Bool := return (← get).fault.isSome

/-- Stops the traversal.  The first fault counts. -/
def halt (f : Fault) : Walk σ Unit :=
  modify fun s => { s with fault := s.fault <|> some f }

/-- Changes what the scope `level` steps outward declares. -/
def declareAt (level : Nat) (ident : String) : Walk σ Unit :=
  modify fun s => { s with
    scopes := s.scopes.modify level fun names =>
      if ident ∈ names then names else names ++ [ident] }

/-- Enters a scope. -/
def openScope (names : List String) : Walk σ Unit :=
  modify fun s => { s with scopes := names :: s.scopes }

/-- Leaves the innermost scope and returns what it declares. -/
def closeScope : Walk σ (List String) := do
  let s ← get
  set { s with scopes := s.scopes.tail }
  return s.scopes.headD []

end Walk

/-- Checks that a node may take the place of another: expressions that of expressions, statements
    that of statements. -/
def Node.replaceBy (old new : Node) : Except Fault Node :=
  match old, new with
  | .expr .absent, _ | .stmt .absent, _ => .error (.replaceFragmentNode old.typeName)
  | .expr _, .expr (.absent) => .error (.replaceFragmentExpr old.typeName new.typeName)
  | .expr _, .expr x => .ok (.expr x)
  | .expr _, _ => .error (.replaceFragmentExpr old.typeName new.typeName)
  | .stmt _, .stmt (.absent) => .error (.replaceFragmentStmt old.typeName new.typeName)
  | .stmt _, .stmt s => .ok (.stmt s)
  | .stmt _, _ => .error (.replaceFragmentStmt old.typeName new.typeName)
  | .function _, _ | .decl _, _ => .error (.replaceFragmentNode old.typeName)

/-! ## The traversal -/

section

variable {σ : Type} (v : Visitor σ) (again : Node → Walk σ Node)

/-- Visits a node in its place, of which `around` says what the parent is with a node in it.  The
    children are visited by `children`, those of a replacement by `again`. -/
def visit (place : Place) (around : Node → Option Node) (n : Node) (children : Walk σ Node) :
    Walk σ Node := do
  if ← Walk.halted then return n
  let entry ← v.enter ⟨place, around n⟩ n
  if ← Walk.halted then return n
  let node := entry.replacement.getD n
  if !entry.descend then return node
  let node ← if entry.replacement.isSome then again node else children
  -- a replacement is not in the parent before it has been left
  let there := if entry.replacement.isSome then n else node
  if ← Walk.halted then return there
  v.leave ⟨place, around there⟩ node

/-- Visits a node of the sort that `embed` makes and `project` recognizes.  What comes back has to be
    of the same sort. -/
def visitAs {α : Type} (embed : α → Node) (project : Node → Option α) (place : Place)
    (around : α → Node) (x : α) (children : Walk σ α) : Walk σ α := do
  let n ← visit v again place (fun n => (project n).map around) (embed x) (return embed (← children))
  match project n with
  | some y => return y
  | none => Walk.halt .notABlock; return x

/-- Visits an expression unless it is absent. -/
def visitExpr (place : Place) (around : Expr → Node) (x : Expr) (children : Walk σ Expr) :
    Walk σ Expr :=
  match x with
  | .absent => return .absent
  | x => visitAs v again .expr Node.expr? place around x children

/-- Visits a statement unless it is absent. -/
def visitStmt (place : Place) (around : Stmt → Node) (s : Stmt) (children : Walk σ Stmt) :
    Walk σ Stmt :=
  match s with
  | .absent => return .absent
  | s => visitAs v again .stmt Node.stmt? place around s children

/-- Visits the body of a function.  What comes back has to be a block. -/
def visitBody (around : Stmt → Node) (body : Stmt) (children : Walk σ Stmt) : Walk σ Stmt := do
  match body, ← visitStmt v again .functionBody around body children with
  | .absent, _ => return .absent
  | _, .block ss => return .block ss
  | body, _ => Walk.halt .notABlock; return body

mutual

/-- Visits the children of an expression in the order in which they are written. -/
def walkExpr : Expr → Walk σ Expr
  | .absent => return .absent
  | .name ident q level =>
    return .name ident
      (← visitExpr v again .qualifier (fun q => .expr (.name ident q level)) q (walkExpr q)) level
  | .call callee args => do
    let callee ← visitExpr v again .callee (fun c => .expr (.call c args)) callee (walkExpr callee)
    return .call callee (← walkArgs (fun xs => .expr (.call callee xs)) 0 args)
  | .this => return .this
  | .literal text => return .literal text
  | .binary op x y => do
    let x ← visitExpr v again .left (fun x => .expr (.binary op x y)) x (walkExpr x)
    return .binary op x
      (← visitExpr v again .right (fun y => .expr (.binary op x y)) y (walkExpr y))
  | .unary op x =>
    return .unary op (← visitExpr v again .operand (fun x => .expr (.unary op x)) x (walkExpr x))
  | .func f =>
    return .func (← visitAs v again .function Node.function? .funcLiteral (fun f => .expr (.func f))
      f (walkFunction f))

/-- Visits arguments, the first of which has the index `i`. -/
def walkArgs (around : List Expr → Node) (i : Nat) : List Expr → Walk σ (List Expr)
  | [] => return []
  | x :: xs => do
    let x ← visitExpr v again (.argument i) (fun x => around (x :: xs)) x (walkExpr x)
    return x :: (← walkArgs (fun xs => around (x :: xs)) (i + 1) xs)

/-- Visits the children of a statement. -/
def walkStmt : Stmt → Walk σ Stmt
  | .absent => return .absent
  | .block ss => return .block (← walkStmts (fun ss => .stmt (.block ss)) 0 ss)
  | .expr x =>
    return .expr (← visitExpr v again .exprStmt (fun x => .stmt (.expr x)) x (walkExpr x))
  | .ret x => return .ret (← visitExpr v again .returned (fun x => .stmt (.ret x)) x (walkExpr x))
  | .var ds => return .var (← walkDecls (fun ds => .stmt (.var ds)) 0 ds)
  | .cond test yes no => do
    let test ← visitExpr v again .condTest (fun test => .stmt (.cond test yes no)) test (walkExpr test)
    let yes ← visitStmt v again .condYes (fun yes => .stmt (.cond test yes no)) yes (walkStmt yes)
    return .cond test yes
      (← visitStmt v again .condNo (fun no => .stmt (.cond test yes no)) no (walkStmt no))

def walkStmts (around : List Stmt → Node) (i : Nat) : List Stmt → Walk σ (List Stmt)
  | [] => return []
  | s :: ss => do
    let s ← visitStmt v again (.blockStmt i) (fun s => around (s :: ss)) s (walkStmt s)
    return s :: (← walkStmts (fun ss => around (s :: ss)) (i + 1) ss)

/-- Visits the children of a declarator. -/
def walkDecl : Decl → Walk σ Decl
  | .mk name init =>
    return .mk name (← visitExpr v again .declInit (fun x => .decl (.mk name x)) init (walkExpr init))

def walkDecls (around : List Decl → Node) (i : Nat) : List Decl → Walk σ (List Decl)
  | [] => return []
  | d :: ds => do
    let d ← visitAs v again .decl Node.decl? (.varDecl i) (fun d => around (d :: ds)) d (walkDecl d)
    return d :: (← walkDecls (fun ds => around (d :: ds)) (i + 1) ds)

/-- Visits the body of a function inside the function's scope. -/
def walkFunction : Function → Walk σ Function
  | .mk name params names body => do
    Walk.openScope names
    let body ← visitBody v again (fun b => .function (.mk name params names b)) body (walkStmt body)
    return .mk name params (← Walk.closeScope) body

end

/-- Visits the children of a node. -/
def walkChildren : Node → Walk σ Node
  | .expr .absent => do Walk.halt .absentFragmentNode; return .expr .absent
  | .stmt .absent => do Walk.halt .absentFragmentNode; return .stmt .absent
  | .expr x => return .expr (← walkExpr v again x)
  | .stmt s => return .stmt (← walkStmt v again s)
  | .decl d => return .decl (← walkDecl v again d)
  | .function f => return .function (← walkFunction v again f)

end

/-- Visits the children of a node, where replacements made by `enter` lie at most `depth` deep in
    each other. -/
def walkBelow {σ : Type} (v : Visitor σ) : (depth : Nat) → Node → Walk σ Node
  | 0, n => do Walk.halt .unbounded; return n
  | depth + 1, n => walkChildren v (walkBelow v depth) n

/-- Traverses a tree, in which replacements made by `enter` lie at most `depth` deep in each
    other. -/
def walk {σ : Type} (v : Visitor σ) (depth : Nat) (n : Node) : Walk σ Node :=
  visit v (walkBelow v depth) .root (fun _ => none) n (walkChildren v (walkBelow v depth) n)

/-- The result of a traversal: the tree, the visitor's state, the scopes around the tree, and the
    fault that stopped it. -/
structure Walked (σ : Type) where
  node : Node
  user : σ
  scopes : Scopes
  fault : Option Fault

/-- Traverses a tree that stands inside the given scopes. -/
def runWalk {σ : Type} (v : Visitor σ) (depth : Nat) (n : Node) (scopes : Scopes)
    (user : σ) : Walked σ :=
  let (n, s) := (walk v depth n).run ⟨user, scopes, none⟩
  ⟨n, s.user, s.scopes, s.fault⟩

/-! ## Looking only -/

mutual

/-- The identifiers of the names in an expression that lie in it, each before those of its
    qualifier. -/
def Expr.idents : Expr → List String
  | .absent => []
  | .name ident q _ => ident :: q.idents
  | .call callee args => callee.idents ++ identsOfArgs args
  | .this => []
  | .literal _ => []
  | .binary _ x y => x.idents ++ y.idents
  | .unary _ x => x.idents
  | .func f => f.idents

def identsOfArgs : List Expr → List String
  | [] => []
  | x :: xs => x.idents ++ identsOfArgs xs

def Stmt.idents : Stmt → List String
  | .absent => []
  | .block ss => identsOfStmts ss
  | .expr x => x.idents
  | .ret x => x.idents
  | .var ds => identsOfDecls ds
  | .cond test yes no => test.idents ++ yes.idents ++ no.idents

def identsOfStmts : List Stmt → List String
  | [] => []
  | s :: ss => s.idents ++ identsOfStmts ss

def identsOfDecls : List Decl → List String
  | [] => []
  | .mk _ init :: ds => init.idents ++ identsOfDecls ds

def Function.idents : Function → List String
  | .mk _ _ _ body => body.idents

end

/-- The member references of a function, in the order in which a traversal enters them. -/
def Function.memberIdents (f : Function) : List String :=
  f.idents.filter isMemberIdent

end DefaultLowering.Fragment
