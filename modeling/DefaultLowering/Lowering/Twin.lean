import DefaultLowering.Program.Relocation

/-!
# Static twins

The twin of a default method is a static method of the same interface.  It takes the receiver as its
first parameter, and it has the body of the default method, relocated.  The default method is left with
a body that passes its receiver and its parameters on to the twin.

A default method has one twin.  The program's table of static implementations remembers it.
-/

namespace DefaultLowering

/-- The ending of a twin's name. -/
def twinEnding : String := "$static"

/-- The name of the parameter that holds the receiver. -/
def receiverParam : String := "this$static"

namespace Fragment

/-! ## Fragments with a receiver parameter -/

mutual

/-- The expression with `this` read from the receiver parameter, outside function literals, which
    have a `this` of their own. -/
def Expr.readingReceiver : Expr → Expr
  | .absent => .absent
  | .name ident q level => .name ident q.readingReceiver level
  | .call callee args => .call callee.readingReceiver (argsReadingReceiver args)
  | .this => .name receiverParam .absent (some 0)
  | .literal text => .literal text
  | .binary op x y => .binary op x.readingReceiver y.readingReceiver
  | .unary op x => .unary op x.readingReceiver
  | .func f => .func f

def argsReadingReceiver : List Expr → List Expr
  | [] => []
  | x :: xs => x.readingReceiver :: argsReadingReceiver xs

end

def Decl.readingReceiver : Decl → Decl
  | .mk name init => .mk name init.readingReceiver

mutual

def Stmt.readingReceiver : Stmt → Stmt
  | .absent => .absent
  | .block ss => .block (stmtsReadingReceiver ss)
  | .expr x => .expr x.readingReceiver
  | .ret x => .ret x.readingReceiver
  | .var ds => .var (ds.map Decl.readingReceiver)
  | .cond test yes no =>
    .cond test.readingReceiver yes.readingReceiver no.readingReceiver

def stmtsReadingReceiver : List Stmt → List Stmt
  | [] => []
  | s :: ss => s.readingReceiver :: stmtsReadingReceiver ss

end

/-- The function with the receiver as its first parameter. -/
def Function.withReceiver : Function → Function
  | .mk name params names body =>
    .mk name (receiverParam :: params)
      (if receiverParam ∈ names then names else names ++ [receiverParam]) body.readingReceiver

end Fragment

namespace Program

/-! ## Passing on -/

/-- The body of one statement that calls a static method, and returns its value if it has one. -/
def passingOn (pos : Pos) (result : TypeName) (target : MethodRef) (args : List Expr) : Body :=
  let call := Expr.call pos .absent target args
  let stmt := if result.isVoid then Stmt.expr pos call else Stmt.ret pos call
  .code pos (some ⟨pos, [stmt]⟩)

/-- References to the parameters of a method, in order. -/
def paramRefs (pos : Pos) (m : MethodRef) (count : Nat) : List Expr :=
  (List.range count).map fun i => .param pos ⟨m, i⟩

/-- The body left behind in a default method of the type `iface`. -/
def delegatingBody (m : MethodRef) (method : Method) (iface : TypeRef) (twin : MethodRef) : Body :=
  passingOn method.pos method.result twin
    (.this method.pos iface :: paramRefs method.pos m method.params.length)

/-! ## Making a twin -/

/-- What came of the request for a twin. -/
inductive TwinRequest where
  /-- There was one. -/
  | known (twin : MethodRef)
  /-- It was made, and the body was relocated. -/
  | made (twin : MethodRef) (program : Program) (relocation : Relocation)
  /-- There is none.  The body may have been relocated in part. -/
  | failed (fault : Fault) (program : Program) (relocation : Option Relocation)

/-- The twin of a method before it has a body: its head and its parameters. -/
def twinHead (method : Method) (ifaceName : String) : Method :=
  { name := method.name ++ twinEnding
    result := method.result
    pos := method.pos
    access := method.access
    static := true
    synthetic := true
    thrown := method.thrown
    params := ⟨receiverParam, ifaceName, false, method.pos⟩ :: method.params }

/-- Adds a twin with its body to the interface, records it, and leaves the delegating body behind. -/
def installTwin (p : Program) (m : MethodRef) (iface : TypeRef) (twin : Method) :
    MethodRef × Program :=
  let method := p.method m
  let (t, p) := p.newMethod { twin with frozen := true }
  let p := p.appendMethod iface t
  let p := match p.recordStatic m t with
    | .ok p => p
    | .error _ => p
  (t, p.updateMethod m fun x =>
    { x with body := some (delegatingBody m method iface t), native := false })

/-- Makes the twin of a method that is a default method of the program. -/
def makeTwin (p : Program) (m : MethodRef) (iface : TypeRef) : TwinRequest :=
  let method := p.method m
  let head := twinHead method (p.type iface).name
  let relocation : Relocation := ⟨m, ⟨p.methods.length⟩⟩
  match method.body with
  | some (.code pos (some block)) =>
    match relocation.reachStmts block.stmts with
    | (stmts, true) =>
      let (t, p) := p.installTwin m iface
        { head with body := some (.code pos (some ⟨block.pos, stmts⟩)) }
      .made t p relocation
    | (stmts, false) =>
      let (_, p) := p.newMethod head
      .failed .absentBodyNode (p.setBody m (some (.code pos (some ⟨block.pos, stmts⟩))))
        (some relocation)
  | some (.native pos func refs) =>
    let (t, p) := p.installTwin m iface
      { head with
        native := true
        body := some (.native pos (func.map Fragment.Function.withReceiver) refs) }
    .made t p relocation
  | _ => .failed (.twinOfNonDefault (p.keyText m)) p none

/-- The twin of a method, made if there is none.  Only default methods of the program have one. -/
def requestTwin (p : Program) (m : MethodRef) : TwinRequest :=
  match p.staticOf? m with
  | some twin => .known twin
  | none =>
    if !p.isDefault m then .failed (.twinOfNonDefault (p.keyText m)) p none
    else if (p.method m).id.isNone then .failed (.twinOfUnattached (p.keyText m)) p none
    else
      match (p.method m).enclosing with
      | none => .failed (.twinOfNonDefault (p.keyText m)) p none
      | some iface => p.makeTwin m iface

end Program

end DefaultLowering
