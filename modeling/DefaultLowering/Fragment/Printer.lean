import DefaultLowering.Fragment.Grammar

/-!
# Writing fragments

A tree is written on one line, with the parentheses its operators need and no others.  An operand is
parenthesized when it binds looser than its place asks; function literals are parenthesized where a
callee or a qualifier stands.

`render` writes any tree and leaves out what is absent.  A tree with a hole where an expression is
needed has no written form; `Node.print` reports that.
-/

namespace DefaultLowering.Fragment

/-! ## Binding powers -/

/-- The least tight place: a whole expression. -/
def powerAssign : Nat := 0

/-- The operand of a unary operator. -/
def powerUnary : Nat := 7

/-- A callee or a qualifier. -/
def powerPostfix : Nat := 8

/-- Text in parentheses if they are needed. -/
def parenthesized (needed : Bool) (text : String) : String :=
  if needed then "(" ++ text ++ ")" else text

/-- The text after the operator, before the operand, of a unary operation. -/
def unaryGap (op : String) : String :=
  if op = "typeof" then " " else ""

/-! ## Text of a tree -/

mutual

/-- An expression in a place that asks for the binding power `min`. -/
def Expr.render (min : Nat) : Expr → String
  | .absent => ""
  | .name ident .absent _ => ident
  | .name ident qualifier _ => qualifier.render powerPostfix ++ "." ++ ident
  | .call callee args =>
    callee.render powerPostfix ++ "(" ++ String.intercalate ", " (renderArgs args) ++ ")"
  | .this => "this"
  | .literal text => text
  | .binary op x y =>
    let own := if op = "=" then powerAssign else (binaryPower op).getD 0
    let left := if op = "=" then powerAssign + 1 else own
    let right := if op = "=" then powerAssign else own + 1
    parenthesized (own < min) (x.render left ++ " " ++ op ++ " " ++ y.render right)
  | .unary op x =>
    parenthesized (powerUnary < min) (op ++ unaryGap op ++ x.render powerUnary)
  | .func f => parenthesized (powerUnary < min) f.render

/-- Arguments, none of which is an assignment without parentheses. -/
def renderArgs : List Expr → List String
  | [] => []
  | x :: xs => x.render (powerAssign + 1) :: renderArgs xs

/-- A statement with its semicolon. -/
def Stmt.render : Stmt → String
  | .absent => ";"
  | .block [] => "\x7b\x7d"
  | .block (s :: ss) =>
    "\x7b " ++ String.intercalate " " (s.render :: renderStmts ss) ++ " \x7d"
  | .expr x => x.render powerAssign ++ ";"
  | .ret .absent => "return;"
  | .ret x => "return " ++ x.render powerAssign ++ ";"
  | .var ds => "var " ++ String.intercalate ", " (renderDecls ds) ++ ";"
  | .cond test yes .absent =>
    "if (" ++ test.render powerAssign ++ ") " ++ yes.render
  | .cond test yes no =>
    "if (" ++ test.render powerAssign ++ ") " ++ yes.render ++ " else " ++ no.render

def renderStmts : List Stmt → List String
  | [] => []
  | s :: ss => s.render :: renderStmts ss

def Decl.render : Decl → String
  | .mk name .absent => name
  | .mk name init => name ++ " = " ++ init.render (powerAssign + 1)

def renderDecls : List Decl → List String
  | [] => []
  | d :: ds => d.render :: renderDecls ds

def Function.render : Function → String
  | .mk name params _ .absent => functionHead name params ++ "\x7b\x7d"
  | .mk name params _ body => functionHead name params ++ body.render

/-- A function up to its body. -/
def functionHead (name : String) (params : List String) : String :=
  "function" ++ (if name = "" then "" else " " ++ name)
    ++ "(" ++ String.intercalate ", " params ++ ") "

end

/-! ## Trees without holes -/

mutual

/-- Every expression that the text needs is there. -/
def Expr.complete : Expr → Bool
  | .absent => false
  | .name _ .absent _ => true
  | .name _ qualifier _ => qualifier.complete
  | .call callee args => callee.complete && completeArgs args
  | .this => true
  | .literal _ => true
  | .binary _ x y => x.complete && y.complete
  | .unary _ x => x.complete
  | .func f => f.complete

def completeArgs : List Expr → Bool
  | [] => true
  | x :: xs => x.complete && completeArgs xs

def Stmt.complete : Stmt → Bool
  | .absent => true
  | .block ss => completeStmts ss
  | .expr x => x.complete
  | .ret .absent => true
  | .ret x => x.complete
  | .var ds => completeDecls ds
  | .cond test yes no => test.complete && yes.complete && no.complete

def completeStmts : List Stmt → Bool
  | [] => true
  | s :: ss => s.complete && completeStmts ss

def Decl.complete : Decl → Bool
  | .mk _ .absent => true
  | .mk _ init => init.complete

def completeDecls : List Decl → Bool
  | [] => true
  | d :: ds => d.complete && completeDecls ds

def Function.complete : Function → Bool
  | .mk _ _ _ body => body.complete

end

/-! ## Printing a node -/

/-- Why a node has no written form. -/
inductive PrintError where
  /-- There is no node. -/
  | absentNode
  /-- An expression is missing inside the node. -/
  | absentExpr
  deriving DecidableEq, Repr

/-- The wording of an error. -/
def PrintError.message : PrintError → String
  | .absentNode => "jsast: cannot print <nil>"
  | .absentExpr => "jsast: cannot print expression <nil>"

/-- The text of a node, if it has one. -/
def Node.print : Node → Except PrintError String
  | .expr .absent | .stmt .absent => .error .absentNode
  | .function f => if f.complete then .ok f.render else .error .absentExpr
  | .decl d => if d.complete then .ok d.render else .error .absentExpr
  | .stmt s => if s.complete then .ok s.render else .error .absentExpr
  | .expr x => if x.complete then .ok (x.render powerAssign) else .error .absentExpr

end DefaultLowering.Fragment
