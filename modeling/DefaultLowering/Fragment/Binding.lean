import DefaultLowering.Fragment.Grammar

/-!
# Scopes and the resolution of names

A fragment stands inside a chain of scopes that ends in a root.  A function scope declares the
parameters of its function and every variable declared in its body outside nested function literals,
wherever in the body the declaration stands.  An unqualified script name denotes the declaration in
the nearest scope that has it; a name that no scope has is declared in the root when it is met.
-/

namespace DefaultLowering.Fragment

/-- A scope: how it is described, and the names it declares in the order of their declaration. -/
structure Scope where
  desc : String
  names : List String
  deriving DecidableEq, Repr, Inhabited

/-- Adds a name unless it is there already. -/
def declare (ident : String) (names : List String) : List String :=
  if ident ∈ names then names else names ++ [ident]

/-- The scopes around a fragment. -/
structure Chain where
  /-- The scopes between the fragment and the root, from the inside outward. -/
  inner : List Scope
  root : Scope
  deriving DecidableEq, Repr, Inhabited

namespace Chain

/-- A root that declares nothing. -/
def empty : Chain := ⟨[], ⟨"root", []⟩⟩

/-- The chain whose root declares the given names. -/
def ofRoot (names : List String) : Chain := ⟨[], ⟨"root", names⟩⟩

/-- All scopes, from the root inward. -/
def fromRoot (c : Chain) : List Scope := c.root :: c.inner.reverse

end Chain

/-! ## Resolution -/

/-- How many scopes to go outward to the first that declares `ident`; past all of them stands the
    root. -/
def levelOf (around : Scopes) (ident : String) : Nat :=
  around.findIdx fun names => names.contains ident

/-- Resolves one unqualified name.  The state is what the root declares. -/
def resolve (around : Scopes) (ident : String) : StateM (List String) Nat := do
  let level := levelOf around ident
  if level = around.length then modify (declare ident)
  return level

mutual

/-- Resolves the names of an expression, in the order in which they are written. -/
def bindExpr (around : Scopes) : Expr → StateM (List String) Expr
  | .absent => return .absent
  | .name ident .absent level =>
    if isMemberIdent ident then return .name ident .absent level
    else return .name ident .absent (some (← resolve around ident))
  | .name ident qualifier level => return .name ident (← bindExpr around qualifier) level
  | .call callee args => return .call (← bindExpr around callee) (← bindExprs around args)
  | .this => return .this
  | .literal text => return .literal text
  | .binary op x y => return .binary op (← bindExpr around x) (← bindExpr around y)
  | .unary op x => return .unary op (← bindExpr around x)
  | .func f => return .func (← bindFunction around f)

def bindExprs (around : Scopes) : List Expr → StateM (List String) (List Expr)
  | [] => return []
  | x :: xs => return (← bindExpr around x) :: (← bindExprs around xs)

def bindStmt (around : Scopes) : Stmt → StateM (List String) Stmt
  | .absent => return .absent
  | .block ss => return .block (← bindStmts around ss)
  | .expr x => return .expr (← bindExpr around x)
  | .ret x => return .ret (← bindExpr around x)
  | .var ds => return .var (← bindDecls around ds)
  | .cond test yes no =>
    return .cond (← bindExpr around test) (← bindStmt around yes) (← bindStmt around no)

def bindStmts (around : Scopes) : List Stmt → StateM (List String) (List Stmt)
  | [] => return []
  | s :: ss => return (← bindStmt around s) :: (← bindStmts around ss)

def bindDecls (around : Scopes) : List Decl → StateM (List String) (List Decl)
  | [] => return []
  | .mk name init :: ds => return .mk name (← bindExpr around init) :: (← bindDecls around ds)

/-- Resolves the names of a function's body, which its own scope surrounds first. -/
def bindFunction (around : Scopes) : Function → StateM (List String) Function
  | .mk name params names body =>
    return .mk name params names (← bindStmt (names :: around) body)

end

/-- Resolves the names of a function that stands in a chain of scopes. -/
def Function.bind (f : Function) (chain : Chain) : Function × Chain :=
  let (f, names) := (bindFunction (chain.inner.map Scope.names) f).run chain.root.names
  (f, { chain with root := { chain.root with names := names } })

/-- A part of the reading inside of a chain.  What it has done to the scopes is done also if it
    fails. -/
abbrev Reading := ExceptT SyntaxError (StateM Chain)

/-- Reads a fragment as the body of a function with the given parameters.  Names are resolved once all
    of it has been read. -/
def reading (source : String) (params : List String) : Reading Function := do
  let f ← MonadExcept.ofExcept (readFragment source params)
  modifyGet f.bind

/-- Reads a fragment in a chain.  The chain comes back with the names that the fragment leaves to the
    root. -/
def parse (source : String) (params : List String) (chain : Chain) :
    Except SyntaxError (Function × Chain) :=
  match (reading source params).run.run chain with
  | (.ok f, chain) => .ok (f, chain)
  | (.error e, _) => .error e

theorem parse_eq (source : String) (params : List String) (chain : Chain) :
    parse source params chain = (do
      let f ← readFragment source params
      return f.bind chain) := by
  unfold parse reading
  cases readFragment source params <;> rfl

end DefaultLowering.Fragment
