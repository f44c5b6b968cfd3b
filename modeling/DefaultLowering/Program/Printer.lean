import DefaultLowering.Fragment.Printer
import DefaultLowering.Program.Basic

/-!
# Listings

A program is written as source-like text: its types in the order of their declaration with a blank
line between them, each with its methods in order.  A static call is written under the flat name of
its target.
-/

namespace DefaultLowering.Program

/-! ## Bodies -/

mutual

/-- The text of an expression. -/
def Expr.render (p : Program) : Expr → String
  | .absent => "<nil>"
  | .call _ .absent target args => p.flatName target ++ renderCallArgs p args
  | .call _ (.implicitThis _) target args => (p.method target).name ++ renderCallArgs p args
  | .call _ receiver target args =>
    receiver.render p ++ "." ++ (p.method target).name ++ renderCallArgs p args
  | .implicitThis _ => "this"
  | .this _ _ => "this"
  | .param _ r => (p.param r).name
  | .local _ v => v.name
  | .new _ t => "new " ++ (p.type t).name ++ "()"
  | .literal _ value _ => value

/-- The arguments of a call in parentheses. -/
def renderCallArgs (p : Program) : List Expr → String
  | [] => "()"
  | x :: xs => "(" ++ x.render p ++ renderMoreArgs p xs ++ ")"

def renderMoreArgs (p : Program) : List Expr → String
  | [] => ""
  | x :: xs => ", " ++ x.render p ++ renderMoreArgs p xs

end

mutual

/-- The lines of a statement. -/
def Stmt.render (p : Program) (indent : String) : Stmt → String
  | .absent => indent ++ "/* <nil> */\n"
  | .block _ stmts =>
    indent ++ "\x7b\n" ++ renderStmts p (indent ++ "  ") stmts ++ indent ++ "\x7d\n"
  | .ret _ .absent => indent ++ "return;\n"
  | .ret _ x => indent ++ "return " ++ x.render p ++ ";\n"
  | .expr _ x => indent ++ x.render p ++ ";\n"
  | .local _ v .absent => indent ++ v.type.display ++ " " ++ v.name ++ ";\n"
  | .local _ v init =>
    indent ++ v.type.display ++ " " ++ v.name ++ " = " ++ init.render p ++ ";\n"

def renderStmts (p : Program) (indent : String) : List Stmt → String
  | [] => ""
  | s :: ss => s.render p indent ++ renderStmts p indent ss

end

/-- A body with what closes the line of the method's head. -/
def renderBody (p : Program) (indent : String) : Option Body → String
  | none => ";\n"
  | some (.code _ none) => " \x7b\x7d\n"
  | some (.code _ (some block)) =>
    if block.stmts.isEmpty then " \x7b\x7d\n"
    else " \x7b\n" ++ renderStmts p (indent ++ "  ") block.stmts ++ indent ++ "\x7d\n"
  | some (.native _ none _) => " /*--*/;\n"
  | some (.native _ (some f) _) =>
    " /*-" ++ (match f.body with
      | .absent => "\x7b\x7d"
      | body => body.render) ++ "-*/;\n"

/-! ## Methods and types -/

/-- A word followed by a blank, if it is wanted. -/
def modifier (wanted : Bool) (word : String) : String :=
  if wanted then word ++ " " else ""

def renderParam (x : Param) : String :=
  modifier x.final "final" ++ x.type.display ++ " " ++ x.name

/-- The lines of a method. -/
def renderMethod (p : Program) (indent : String) (m : MethodRef) : String :=
  let x := p.method m
  indent
    ++ modifier (x.access ≠ "") x.access
    ++ modifier x.static "static"
    ++ modifier x.abstract "abstract"
    ++ modifier x.native "native"
    ++ x.result.display ++ " " ++ x.name
    ++ "(" ++ String.intercalate ", " (x.params.map renderParam) ++ ")"
    ++ (if x.thrown.isEmpty then "" else " throws " ++ String.intercalate ", " x.thrown)
    ++ renderBody p indent x.body

/-- A single method, without indentation and final line break. -/
def methodText (p : Program) (m : MethodRef) : String :=
  String.ofList (p.renderMethod "" m).toList.dropLast

/-- A keyword and the names of types, if there are any. -/
def renderSupers (p : Program) (word : String) (ts : List TypeRef) : String :=
  if ts.isEmpty then ""
  else " " ++ word ++ " " ++ String.intercalate ", " (ts.map fun t => (p.type t).name)

/-- The lines of a type. -/
def renderType (p : Program) (t : TypeRef) : String :=
  let x := p.type t
  let head :=
    if x.isInterface then "interface " ++ x.name ++ p.renderSupers "extends" x.interfaces
    else
      modifier x.abstract "abstract" ++ "class " ++ x.name
        ++ p.renderSupers "extends" x.super.toList
        ++ p.renderSupers "implements" x.interfaces
  head ++ " \x7b\n" ++ String.join (x.methods.map (p.renderMethod "  ")) ++ "\x7d\n"

/-- The listing of the whole program. -/
def text (p : Program) : String :=
  String.intercalate "\n" (p.declared.map p.renderType)

end DefaultLowering.Program
