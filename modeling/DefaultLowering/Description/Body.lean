import DefaultLowering.Description.Basic
import DefaultLowering.Description.Problem
import DefaultLowering.Program.Basic

/-!
# Building typed bodies

The names of a typed body are resolved in the program whose types and methods are all declared: locals
come before parameters, and a local is visible in the statements behind its declaration.
-/

namespace DefaultLowering.Description

/-- Where a body is built. -/
structure Site where
  program : Program
  file : String
  /-- The method that gets the body. -/
  method : MethodRef

namespace Site

/-- The method that gets the body. -/
def owner (s : Site) : DefaultLowering.Method := s.program.method s.method

/-- The position of a line. -/
def pos (s : Site) (line : Nat) : Pos := ⟨s.file, line⟩

/-- A problem of the body. -/
def problem (s : Site) (line : Nat) (cause : BodyCause) : Problem :=
  ⟨line, .body s.owner.name cause⟩

/-- The parameter with a name. -/
def param? (s : Site) (name : String) : Option ParamRef :=
  (s.owner.params.findIdx? fun x => x.name == name).map (⟨s.method, ·⟩)

end Site

/-! ## Call targets -/

/-- The index of the last character with a property. -/
def lastIdx? (p : Char → Bool) (cs : List Char) : Option Nat :=
  (cs.reverse.findIdx? p).map (cs.length - 1 - ·)

/-- Splits a call target `Type.name(T1,T2)` into the type and the signature. -/
def splitTarget (cs : List Char) : Except BodyCause (String × String) :=
  let target := String.ofList cs
  let front := cs.takeWhile (· != '(')
  if front.length == cs.length || cs.getLast? != some ')' then .error (.malformedTarget target)
  else
    match lastIdx? (· == '.') front with
    | none | some 0 => .error (.targetWithoutType target)
    | some dot => .ok (String.ofList (cs.take dot), String.ofList (cs.drop (dot + 1)))

/-- The method that a call target names.  Spaces in the target do not count. -/
def resolveTarget (p : Program) (target : String) : Except BodyCause MethodRef := do
  let (type, signature) ← splitTarget (target.toList.filter (· != ' '))
  match p.typeNamed type with
  | none => throw (.unknownType type)
  | some t =>
    match p.ownMethod? t signature with
    | none => throw (.unknownMethod type signature)
    | some m => return m

/-! ## Expressions -/

/-- The text behind `new` and a space. -/
def newName? (cs : List Char) : Option (List Char) :=
  if ['n', 'e', 'w', ' '].isPrefixOf cs then some (Text.trimChars (cs.drop 4)) else none

/-- Builds an expression that is a name. -/
def buildName (s : Site) (locals : List Local) (line : Nat) (text : String) :
    Except Problem Program.Expr :=
  let name := Text.trim text
  let pos := s.pos line
  if name == "this" then
    match s.owner.static, s.owner.enclosing with
    | false, some t => .ok (.this pos t)
    | _, _ => .error (s.problem line .thisInStatic)
  else
    match newName? name.toList with
    | some cs =>
      let type := String.ofList cs
      match s.program.typeNamed type with
      | none => .error (s.problem line (.unknownType type))
      | some t =>
        if (s.program.type t).isInterface || (s.program.type t).abstract then
          .error (s.problem line (.notInstantiable type))
        else .ok (.new pos t)
    | none =>
      match locals.find? (·.name == name) with
      | some l => .ok (.local pos l)
      | none =>
        match s.param? name with
        | some p => .ok (.param pos p)
        | none => .error (s.problem line (.unknownName name))

/-- Builds a literal.  One without a type is a string. -/
def buildLiteral (s : Site) (line : Nat) (text type : String) : Except Problem Program.Expr :=
  if type != "" then .ok (.literal (s.pos line) text type)
  else if text.toList.head? == some '"' then .ok (.literal (s.pos line) text "String")
  else .error (s.problem line (.untypedLiteral text))

/-- The receiver of a call that names none: the object itself, unless the target is static. -/
def implicitReceiver (s : Site) (line : Nat) (target : MethodRef) : Except Problem Program.Expr :=
  if (s.program.method target).static then .ok .absent
  else if s.owner.static then
    .error (s.problem line (.receiverMissing (s.program.keyText target)))
  else .ok (.implicitThis (s.pos line))

mutual

/-- Builds an expression. -/
def buildExpr (s : Site) (locals : List Local) : Expr → Except Problem Program.Expr
  | .absent => .ok .absent
  | .constant line value type => .ok (.literal (s.pos line) value type)
  | .name line text => buildName s locals line text
  | .missing line => .error (s.problem line .missingExpression)
  | .notAnExpr line => .error (s.problem line .notAnExpression)
  | .unreadable line report => .error (s.problem line (.unreadable report))
  | .record line literal type call receiver args =>
    match literal with
    | some text =>
      if call != "" then .error (s.problem line .literalAndCall) else buildLiteral s line text type
    | none =>
      if call == "" then .error (s.problem line .neitherLiteralNorCall)
      else
        match resolveTarget s.program call with
        | .error cause => .error (s.problem line cause)
        | .ok target => do
          let method := s.program.method target
          let receiver ←
            if receiver.isAbsent then implicitReceiver s line target
            else if method.static then
              throw (s.problem line (.receiverOfStatic (s.program.keyText target)))
            else buildExpr s locals receiver
          if args.length != method.params.length then
            throw (s.problem line
              (.argumentCount (s.program.keyText target) method.params.length args.length))
          let args ← buildExprs s locals args
          return .call (s.pos line) receiver target args

/-- Builds the arguments of a call. -/
def buildExprs (s : Site) (locals : List Local) : List Expr → Except Problem (List Program.Expr)
  | [] => .ok []
  | x :: xs => do
    let x ← buildExpr s locals x
    let xs ← buildExprs s locals xs
    return x :: xs

end

/-! ## Statements -/

/-- Builds a statement, and gives the locals that the statements behind it see. -/
def buildStmt (s : Site) (locals : List Local) : Stmt → Except Problem (Program.Stmt × List Local)
  | .ret line .absent =>
    if s.owner.result.isVoid then .ok (.ret (s.pos line) .absent, locals)
    else .error (s.problem line .missingValue)
  | .ret line x => do
    let x ← buildExpr s locals x
    return (.ret (s.pos line) x, locals)
  | .expr line x => do
    let x ← buildExpr s locals x
    return (.expr (s.pos line) x, locals)
  | .local line declLine name type init => do
    if name == "" || type == "" then throw (s.problem declLine .localIncomplete)
    if (s.param? name).isSome || locals.any (·.name == name) then
      throw (s.problem declLine (.alreadyDeclared name))
    let init ← buildExpr s locals init
    let var : Local := ⟨name, type⟩
    return (.local (s.pos line) var init, locals ++ [var])
  | .unreadableLocal line report => .error (s.problem line (.unreadable report))
  | .unknown line word => .error (s.problem line (.unknownStatement word))
  | .notAStmt line => .error (s.problem line .notAStatement)

/-- Builds statements one after the other. -/
def buildStmts (s : Site) : List Local → List Stmt → Except Problem (List Program.Stmt)
  | _, [] => .ok []
  | locals, x :: xs => do
    let (x, locals) ← buildStmt s locals x
    let xs ← buildStmts s locals xs
    return x :: xs

/-- Builds a typed body. -/
def buildBody (s : Site) : Body → Except Problem (Option Program.Body)
  | .absent => .ok none
  | .notAList line => .error (s.problem line .notAList)
  | .stmts line stmts => do
    let stmts ← buildStmts s [] stmts
    return some (.code (s.pos line) (some ⟨s.pos line, stmts⟩))

end DefaultLowering.Description
