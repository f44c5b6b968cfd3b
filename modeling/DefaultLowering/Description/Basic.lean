/-!
# Program descriptions

A description lists types with their methods.  A method has a typed body, given as a list of
statements, or a native one, given as the text of a script fragment, or none.

The syntax of statements and expressions keeps what does not make sense in its place: a statement or an
expression that is malformed is an error only once it is reached, after everything in front of it was
found to be right.
-/

namespace DefaultLowering.Description

/-- Expressions as written. -/
inductive Expr where
  /-- No expression. -/
  | absent
  /-- A number or a truth value with its type. -/
  | constant (line : Nat) (value type : String)
  /-- `this`, `new T`, or the name of a parameter or a local. -/
  | name (line : Nat) (text : String)
  /-- A null where an expression is wanted. -/
  | missing (line : Nat)
  /-- A literal, a call, or what is neither or both. -/
  | record (line : Nat) (literal : Option String) (type call : String) (receiver : Expr)
      (args : List Expr)
  /-- A list, or an alias. -/
  | notAnExpr (line : Nat)
  /-- A mapping whose entries do not fit. -/
  | unreadable (line : Nat) (report : String)
  deriving Inhabited

/-- There is no expression. -/
def Expr.isAbsent : Expr → Bool
  | .absent => true
  | _ => false

/-- Statements as written. -/
inductive Stmt where
  | ret (line : Nat) (value : Expr)
  | expr (line : Nat) (x : Expr)
  /-- A local; the second line is that of its declaration. -/
  | local (line declLine : Nat) (name type : String) (init : Expr)
  | unreadableLocal (line : Nat) (report : String)
  | unknown (line : Nat) (word : String)
  /-- Something that is no mapping with a single key. -/
  | notAStmt (line : Nat)
  deriving Inhabited

/-- Typed bodies as written. -/
inductive Body where
  | absent
  | stmts (line : Nat) (stmts : List Stmt)
  /-- Something that is no list. -/
  | notAList (line : Nat)
  deriving Inhabited

/-- A body was given. -/
def Body.isPresent : Body → Bool
  | .absent => false
  | _ => true

/-- A parameter. -/
structure Param where
  name : String := ""
  type : String := ""
  final : Bool := false
  line : Nat := 0
  deriving DecidableEq, Repr, Inhabited

/-- A method. -/
structure Method where
  name : String := ""
  params : List Param := []
  returns : String := ""
  access : String := ""
  static : Bool := false
  abstract : Bool := false
  final : Bool := false
  throws : List String := []
  /-- The script fragment of a native method. -/
  native : Option String := none
  body : Body := .absent
  line : Nat := 0
  deriving Inhabited

/-- A type. -/
structure TypeDecl where
  name : String := ""
  kind : String := ""
  extending : List String := []
  implementing : List String := []
  abstract : Bool := false
  methods : List Method := []
  line : Nat := 0
  deriving Inhabited

end DefaultLowering.Description

namespace DefaultLowering

/-- A program description. -/
structure Description where
  version : String := ""
  types : List Description.TypeDecl := []
  deriving Inhabited

end DefaultLowering
