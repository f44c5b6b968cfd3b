import DefaultLowering.Description.Basic
import DefaultLowering.Yaml.Decoding

/-!
# Reading a description from a YAML document

The fields of every record are taken by name.  A statement is a mapping with a single key; an
expression is a scalar or a mapping.  Statements and expressions are read as they stand: an alias in
their place is none.
-/

namespace DefaultLowering.Description

open Yaml

/-! ## Expressions -/

/-- The entries of an expression that is a mapping. -/
structure ExprFields where
  literal : Option String := none
  type : String := ""
  call : String := ""
  receiver : Option Node := none
  args : List Node := []

/-- Takes one entry of an expression. -/
def ExprFields.set (d : Document) (name : String) (n : Node) (e : ExprFields) : Decode ExprFields := do
  match name with
  | "lit" => return { e with literal := ← decodeText d n }
  | "type" => return { e with type := (← decodeText d n).getD e.type }
  | "call" => return { e with call := (← decodeText d n).getD e.call }
  | "on" => return { e with receiver := some n }
  | "args" => return { e with args := ← decodeItems d "[]yaml.Node" n }
  | _ => return e

/-- The report on a record that cannot be read. -/
def reportOf {α : Type} (r : Decode α) : Except String α :=
  match r.result with
  | .error refusal => .error refusal.message
  | .ok (.error problems) => .error (Yaml.problemsMessage problems)
  | .ok (.ok a) => .ok a

/-- A scalar in the place of an expression. -/
def scalarExpr (line : Nat) (tag value : String) : Expr :=
  if tag == intTag then .constant line value "int"
  else if tag == floatTag then .constant line value "double"
  else if tag == boolTag then .constant line value "boolean"
  else if tag == nullTag then .missing line
  else .name line value

/-- Reads an expression.  The depth bounds how far merged entries are followed. -/
def exprOf (d : Document) : (depth : Nat) → Node → Expr
  | 0, n => .notAnExpr n.line
  | depth + 1, n =>
    match n with
    | .scalar line tag value => scalarExpr line tag value
    | .mapping line _ _ =>
      let fields := ["lit", "type", "call", "on", "args"]
      match reportOf (decodeRecord d "progfile.exprDecl" fields (ExprFields.set d) {} n) with
      | .error report => .unreadable line report
      | .ok e =>
        let receiver := match e.receiver with
          | some r => exprOf d depth r
          | none => .absent
        .record line e.literal e.type e.call receiver (e.args.map (exprOf d depth))
    | _ => .notAnExpr n.line

/-! ## Statements -/

/-- The entries of a local. -/
structure LocalFields where
  name : String := ""
  type : String := ""
  init : Option Node := none

/-- Takes one entry of a local. -/
def LocalFields.set (d : Document) (name : String) (n : Node) (l : LocalFields) :
    Decode LocalFields := do
  match name with
  | "name" => return { l with name := (← decodeText d n).getD l.name }
  | "type" => return { l with type := (← decodeText d n).getD l.type }
  | "init" => return { l with init := some n }
  | _ => return l

/-- The node is null. -/
def isNull : Node → Bool
  | .scalar _ tag _ => tag == nullTag
  | _ => false

/-- Reads an expression of the document. -/
def topExprOf (d : Document) (n : Node) : Expr := exprOf d (d.size + 1) n

/-- Reads a local; `line` is that of the statement. -/
def localOf (d : Document) (line : Nat) (n : Node) : Stmt :=
  let fields := ["name", "type", "init"]
  match reportOf (decodeRecord d "progfile.localDecl" fields (LocalFields.set d) {} n) with
  | .error report => .unreadableLocal n.line report
  | .ok l =>
    let init := match l.init with
      | some x => topExprOf d x
      | none => .absent
    .local line n.line l.name l.type init

/-- Reads a statement. -/
def stmtOf (d : Document) (n : Node) : Stmt :=
  match n with
  | .mapping line _ [(key, value)] =>
    match key.text with
    | "return" => .ret line (if isNull value then .absent else topExprOf d value)
    | "expr" => .expr line (topExprOf d value)
    | "local" => localOf d line value
    | word => .unknown line word
  | n => .notAStmt n.line

/-- Reads a typed body. -/
def bodyOf (d : Document) (n : Node) : Body :=
  match n with
  | .sequence line _ items => .stmts line (items.map (stmtOf d))
  | n => .notAList n.line

/-! ## Declarations -/

/-- A name, or a list of names. -/
def decodeNames (d : Document) (n : Node) : Decode (List String) := do
  match d.deref n with
  | .scalar line tag value =>
    if tag == nullTag then decodeTexts d (.scalar line tag value) else return [value]
  | .mapping line _ _ => throw (.unexpected line "a name or a list of names")
  | n => decodeTexts d n

/-- Takes one entry of a parameter. -/
def Param.set (d : Document) (name : String) (n : Node) (p : Param) : Decode Param := do
  match name with
  | "name" => return { p with name := (← decodeText d n).getD p.name }
  | "type" => return { p with type := (← decodeText d n).getD p.type }
  | "final" => return { p with final := (← decodeTruth d n).getD p.final }
  | _ => return p

/-- Reads a parameter. -/
def paramOf (d : Document) (n : Node) : Decode Param :=
  decodeRecord d "progfile.plain" ["name", "type", "final"] (Param.set d) { line := n.line } n

/-- The fields of a method. -/
def methodFields : List String :=
  ["name", "params", "returns", "access", "static", "abstract", "final", "throws", "native", "body"]

/-- Takes one entry of a method. -/
def Method.set (d : Document) (name : String) (n : Node) (m : Method) : Decode Method := do
  match name with
  | "name" => return { m with name := (← decodeText d n).getD m.name }
  | "params" => return { m with params := ← decodeRecords d "[]progfile.paramDecl" (paramOf d) n }
  | "returns" => return { m with returns := (← decodeText d n).getD m.returns }
  | "access" => return { m with access := (← decodeText d n).getD m.access }
  | "static" => return { m with static := (← decodeTruth d n).getD m.static }
  | "abstract" => return { m with abstract := (← decodeTruth d n).getD m.abstract }
  | "final" => return { m with final := (← decodeTruth d n).getD m.final }
  | "throws" => return { m with throws := ← decodeTexts d n }
  | "native" => return { m with native := ← decodeText d n }
  | "body" => return { m with body := bodyOf d n }
  | _ => return m

/-- Reads a method. -/
def methodOf (d : Document) (n : Node) : Decode Method :=
  decodeRecord d "progfile.plain" methodFields (Method.set d) { line := n.line } n

/-- Takes one entry of a type. -/
def TypeDecl.set (d : Document) (name : String) (n : Node) (t : TypeDecl) : Decode TypeDecl := do
  match name with
  | "name" => return { t with name := (← decodeText d n).getD t.name }
  | "kind" => return { t with kind := (← decodeText d n).getD t.kind }
  | "extends" => return { t with extending := ← decodeNames d n }
  | "implements" => return { t with implementing := ← decodeNames d n }
  | "abstract" => return { t with abstract := (← decodeTruth d n).getD t.abstract }
  | "methods" => return { t with methods := ← decodeRecords d "[]progfile.methodDecl" (methodOf d) n }
  | _ => return t

/-- Reads a type. -/
def typeOf (d : Document) (n : Node) : Decode TypeDecl :=
  decodeRecord d "progfile.plain" ["name", "kind", "extends", "implements", "abstract", "methods"]
    (TypeDecl.set d) { line := n.line } n

/-- Takes one entry of a description. -/
def set (d : Document) (name : String) (n : Node) (x : Description) : Decode Description := do
  match name with
  | "version" => return { x with version := (← decodeText d n).getD x.version }
  | "types" => return { x with types := ← decodeRecords d "[]progfile.typeDecl" (typeOf d) n }
  | _ => return x

/-- Reads a description. -/
def ofDocument (d : Document) : Decode Description :=
  decodeRecord d "progfile.file" ["version", "types"] (set d) {} d.root

end DefaultLowering.Description
