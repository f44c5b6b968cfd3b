/-!
# Trees of script fragments

A fragment is a function: its parameters, its body, and the names its scope declares.  A name that
the script resolves carries the number of function scopes to go outward from where it stands to reach
the scope that declares it; properties and member references carry none.

Any place of a tree may be empty.  `Expr.absent` and `Stmt.absent` stand in such places: in a bare
`return`, before an unqualified name, in the missing branch of a conditional.
-/

namespace DefaultLowering.Fragment

mutual

/-- Expressions. -/
inductive Expr where
  /-- No expression. -/
  | absent
  /-- `qualifier.ident`, or `ident` alone when the qualifier is absent.  `level` counts outward to
      the declaring scope of a resolved name. -/
  | name (ident : String) (qualifier : Expr) (level : Option Nat)
  | call (callee : Expr) (args : List Expr)
  | this
  /-- A number, string, boolean, `null` or `undefined`, as written. -/
  | literal (text : String)
  /-- A binary operation; assignment is the operation `=`. -/
  | binary (op : String) (left right : Expr)
  | unary (op : String) (operand : Expr)
  /-- A function literal. -/
  | func (f : Function)

/-- Statements. -/
inductive Stmt where
  /-- No statement. -/
  | absent
  | block (stmts : List Stmt)
  | expr (x : Expr)
  | ret (x : Expr)
  | var (decls : List Decl)
  | cond (test : Expr) (yes no : Stmt)

/-- One declarator of a `var` statement. -/
inductive Decl where
  | mk (name : String) (init : Expr)

/-- A function: its name (empty for an anonymous one), its parameters, the names its scope declares
    in the order of their declaration, and its body, a block or absent. -/
inductive Function where
  | mk (name : String) (params : List String) (names : List String) (body : Stmt)

end

instance : Inhabited Expr := ⟨.absent⟩
instance : Inhabited Stmt := ⟨.absent⟩
instance : Inhabited Decl := ⟨.mk "" .absent⟩
instance : Inhabited Function := ⟨.mk "" [] [] .absent⟩

namespace Decl

/-- The declared name. -/
def name : Decl → String
  | mk name _ => name

/-- The initial value. -/
def init : Decl → Expr
  | mk _ init => init

end Decl

namespace Function

def name : Function → String
  | mk name _ _ _ => name

def params : Function → List String
  | mk _ params _ _ => params

/-- The names declared by the function's scope. -/
def names : Function → List String
  | mk _ _ names _ => names

def body : Function → Stmt
  | mk _ _ _ body => body

end Function

/-- An identifier that denotes a member of the program rather than a script name. -/
def isMemberIdent (ident : String) : Bool :=
  ident.toList.head? == some '@'

/-- A member reference names a method, not a field: it ends with a signature. -/
def isMethodIdent (ident : String) : Bool :=
  ident.toList.getLast? == some ')'

/-- What some scopes declare, from the inside outward. -/
abbrev Scopes := List (List String)

/-! ## Kinds of node -/

/-- The sorts of node that a traversal meets. -/
inductive Kind where
  | function
  | block
  | exprStmt
  | ret
  | var
  | decl
  | cond
  | name
  | call
  | this
  | literal
  | binary
  | unary
  | func
  deriving DecidableEq, Repr, Inhabited

/-- The type name by which diagnostics speak of a kind. -/
def Kind.typeName : Kind → String
  | .function => "*jsast.Function"
  | .block => "*jsast.Block"
  | .exprStmt => "*jsast.ExprStmt"
  | .ret => "*jsast.Return"
  | .var => "*jsast.Var"
  | .decl => "*jsast.VarDecl"
  | .cond => "*jsast.If"
  | .name => "*jsast.NameRef"
  | .call => "*jsast.Invocation"
  | .this => "*jsast.This"
  | .literal => "*jsast.Literal"
  | .binary => "*jsast.Binary"
  | .unary => "*jsast.Unary"
  | .func => "*jsast.FuncExpr"

/-- The kind of an expression, none for an absent one. -/
def Expr.kind : Expr → Option Kind
  | .absent => none
  | .name .. => some .name
  | .call .. => some .call
  | .this => some .this
  | .literal _ => some .literal
  | .binary .. => some .binary
  | .unary .. => some .unary
  | .func _ => some .func

/-- The kind of a statement, none for an absent one. -/
def Stmt.kind : Stmt → Option Kind
  | .absent => none
  | .block _ => some .block
  | .expr _ => some .exprStmt
  | .ret _ => some .ret
  | .var _ => some .var
  | .cond .. => some .cond

/-- A node of any sort. -/
inductive Node where
  | function (f : Function)
  | decl (d : Decl)
  | stmt (s : Stmt)
  | expr (x : Expr)
  deriving Inhabited

/-- The kind of a node, none for an absent one. -/
def Node.kind : Node → Option Kind
  | .function _ => some .function
  | .decl _ => some .decl
  | .stmt s => s.kind
  | .expr x => x.kind

def Node.function? : Node → Option Function
  | .function f => some f
  | _ => none

def Node.decl? : Node → Option Decl
  | .decl d => some d
  | _ => none

def Node.stmt? : Node → Option Stmt
  | .stmt s => some s
  | _ => none

def Node.expr? : Node → Option Expr
  | .expr x => some x
  | _ => none

/-- The type name of a possibly absent node. -/
def Node.typeName (n : Node) : String :=
  (n.kind.map Kind.typeName).getD "<nil>"

end DefaultLowering.Fragment
