import DefaultLowering.Fragment.Tree
import DefaultLowering.Program.TypeName

/-!
# Method bodies

A method has a typed body, a block of statements over typed expressions, or a native one, a script
fragment with the list of methods that its member references denote.  Types and methods are referred
to by their place in the program; a parameter by its method and its index there.

As in fragments, `Expr.absent` and `Stmt.absent` stand in the places that hold nothing: the receiver
of a static call, the value of a bare `return`, a local without initial value.
-/

namespace DefaultLowering

/-- A place in a source file. -/
structure Pos where
  file : String
  line : Nat
  deriving DecidableEq, Repr, Inhabited

/-- The text of a position. -/
def Pos.text (p : Pos) : String :=
  if p.file = "" then "line " ++ toString p.line else p.file ++ ":" ++ toString p.line

/-- A type, by its place in the program. -/
structure TypeRef where
  index : Nat
  deriving DecidableEq, Repr, Inhabited

/-- A method, by its place in the program. -/
structure MethodRef where
  index : Nat
  deriving DecidableEq, Repr, Inhabited

/-- A parameter, by its method and its index. -/
structure ParamRef where
  method : MethodRef
  index : Nat
  deriving DecidableEq, Repr, Inhabited

/-- A local variable. -/
structure Local where
  name : String
  type : TypeName
  deriving DecidableEq, Repr, Inhabited

namespace Program

/-- Typed expressions. -/
inductive Expr where
  /-- No expression. -/
  | absent
  /-- A call.  Without a receiver it is a static call. -/
  | call (pos : Pos) (receiver : Expr) (target : MethodRef) (args : List Expr)
  /-- The receiver of a call that names none. -/
  | implicitThis (pos : Pos)
  | this (pos : Pos) (type : TypeRef)
  | param (pos : Pos) (param : ParamRef)
  | local (pos : Pos) (var : Local)
  | new (pos : Pos) (type : TypeRef)
  /-- A constant as written. -/
  | literal (pos : Pos) (value : String) (type : TypeName)
  deriving Inhabited

/-- Statements. -/
inductive Stmt where
  /-- No statement. -/
  | absent
  | block (pos : Pos) (stmts : List Stmt)
  | ret (pos : Pos) (x : Expr)
  | expr (pos : Pos) (x : Expr)
  | local (pos : Pos) (var : Local) (init : Expr)
  deriving Inhabited

/-- A brace-delimited list of statements. -/
structure Block where
  pos : Pos
  stmts : List Stmt
  deriving Inhabited

/-- What a member identifier of a fragment denotes. -/
structure Linkage where
  pos : Pos
  ident : String
  target : Option MethodRef
  deriving DecidableEq, Repr, Inhabited

/-- Method bodies. -/
inductive Body where
  | code (pos : Pos) (block : Option Block)
  /-- A fragment and the methods it refers to, one entry for each identifier. -/
  | native (pos : Pos) (func : Option Fragment.Function) (refs : List Linkage)
  deriving Inhabited

/-- Adds a linkage entry unless its identifier has one. -/
def addLinkage (refs : List Linkage) (r : Linkage) : List Linkage :=
  if refs.any (·.ident == r.ident) then refs else refs ++ [r]

/-! ## Kinds of node -/

/-- The sorts of node of a method body. -/
inductive Kind where
  | codeBody
  | nativeBody
  | linkage
  | block
  | ret
  | exprStmt
  | localDecl
  | call
  | implicitThis
  | this
  | param
  | local
  | new
  | literal
  deriving DecidableEq, Repr, Inhabited

/-- The name of a kind. -/
def Kind.name : Kind → String
  | .codeBody => "MethodBody"
  | .nativeBody => "NativeBody"
  | .linkage => "NativeMethodRef"
  | .block => "Block"
  | .ret => "ReturnStmt"
  | .exprStmt => "ExprStmt"
  | .localDecl => "LocalDecl"
  | .call => "MethodCall"
  | .implicitThis => "ImplicitInstance"
  | .this => "ThisRef"
  | .param => "ParamRef"
  | .local => "LocalRef"
  | .new => "NewInstance"
  | .literal => "Literal"

/-- The type name by which diagnostics speak of a kind. -/
def Kind.typeName (k : Kind) : String := "*jast." ++ k.name

/-- The kind of an expression, none for an absent one. -/
def Expr.kind : Expr → Option Kind
  | .absent => none
  | .call .. => some .call
  | .implicitThis _ => some .implicitThis
  | .this .. => some .this
  | .param .. => some .param
  | .local .. => some .local
  | .new .. => some .new
  | .literal .. => some .literal

/-- The kind of a statement, none for an absent one. -/
def Stmt.kind : Stmt → Option Kind
  | .absent => none
  | .block .. => some .block
  | .ret .. => some .ret
  | .expr .. => some .exprStmt
  | .local .. => some .localDecl

/-- The kind of a body. -/
def Body.kind : Body → Kind
  | .code .. => .codeBody
  | .native .. => .nativeBody

/-- A node of any sort. -/
inductive Node where
  | body (b : Body)
  | stmt (s : Stmt)
  | expr (x : Expr)
  | linkage (r : Linkage)
  deriving Inhabited

/-- The kind of a node, none for an absent one. -/
def Node.kind : Node → Option Kind
  | .body b => some b.kind
  | .stmt s => s.kind
  | .expr x => x.kind
  | .linkage _ => some .linkage

/-- The type name of a possibly absent node. -/
def Node.typeName (n : Node) : String :=
  (n.kind.map Kind.typeName).getD "<nil>"

end Program

end DefaultLowering
