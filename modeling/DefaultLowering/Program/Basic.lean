import DefaultLowering.Fault
import DefaultLowering.Text.Quoted
import DefaultLowering.Program.Body

/-!
# Programs

A program declares classes and interfaces with their methods.  Types and methods exist before they
belong to a program: a method is added to a type, a type to the program, in any order.  From the moment
a method belongs to a type of the program it has an index in the program's arena, which it keeps.

The table of static implementations is keyed by the declaring type's name and the signature of a
method.

Nothing here is ever removed: the lists of types and methods only grow, so that a reference stays
valid once it was handed out.
-/

namespace DefaultLowering

/-! ## Declarations -/

/-- Classes and interfaces. -/
inductive TypeKind where
  | classType
  | interfaceType
  deriving DecidableEq, Repr, Inhabited

/-- The word for a kind of type. -/
def TypeKind.text : TypeKind → String
  | .classType => "class"
  | .interfaceType => "interface"

/-- A class or an interface. -/
structure DeclaredType where
  name : String
  kind : TypeKind
  pos : Pos
  abstract : Bool := false
  /-- The superclass. -/
  super : Option TypeRef := none
  /-- The implemented interfaces; for an interface, the extended ones. -/
  interfaces : List TypeRef := []
  /-- The directly declared methods, in the order of their declaration. -/
  methods : List MethodRef := []
  /-- The type belongs to the program. -/
  attached : Bool := false
  deriving Inhabited

def DeclaredType.isInterface (t : DeclaredType) : Bool := t.kind == .interfaceType

/-- A method parameter. -/
structure Param where
  name : String
  type : TypeName
  final : Bool
  pos : Pos
  deriving DecidableEq, Repr, Inhabited

/-- A method. -/
structure Method where
  name : String
  result : TypeName
  pos : Pos
  access : String := ""
  static : Bool := false
  abstract : Bool := false
  native : Bool := false
  final : Bool := false
  /-- The method was made by the pass. -/
  synthetic : Bool := false
  thrown : List TypeName := []
  params : List Param := []
  /-- The parameter list is closed. -/
  frozen : Bool := false
  overrides : List MethodRef := []
  body : Option Program.Body := none
  /-- The type that declares the method. -/
  enclosing : Option TypeRef := none
  /-- The index in the arena. -/
  id : Option Nat := none
  deriving Inhabited

/-- The name and the parameter types: `name(T1,T2)`. -/
def Method.signature (m : Method) : String :=
  m.name ++ "(" ++ String.intercalate "," (m.params.map Param.type) ++ ")"

/-- The name of a class initializer. -/
def initializerName : String := "$clinit"

def Method.isInitializer (m : Method) : Bool := m.name == initializerName

/-- What identifies a method: the name of its type and its signature. -/
structure MethodKey where
  type : String
  signature : String
  deriving DecidableEq, Repr, Inhabited

/-- The text of a key. -/
def MethodKey.text (k : MethodKey) : String := k.type ++ "." ++ k.signature

/-- A program, with the types and methods that do not belong to it yet. -/
structure Program where
  /-- All types there are. -/
  types : List DeclaredType := []
  /-- All methods there are. -/
  methods : List Method := []
  /-- The types of the program, in the order of their declaration. -/
  declared : List TypeRef := []
  /-- The types of the program under the names they were added with. -/
  byName : List (String × TypeRef) := []
  /-- The methods of the program; the index of a method is its id. -/
  arena : List MethodRef := []
  /-- The ids of the static implementations. -/
  statics : List (MethodKey × Nat) := []
  /-- The names that the fragments of the program share. -/
  globals : List String := []
  deriving Inhabited

/-- Why a type cannot be added to a program. -/
inductive AddTypeError where
  | duplicate (name : String)
  | owned (name : String)
  deriving DecidableEq, Repr

namespace Program

/-! ## Looking up -/

/-- The type that a reference denotes. -/
def type (p : Program) (t : TypeRef) : DeclaredType := (p.types[t.index]?).getD default

/-- The method that a reference denotes. -/
def method (p : Program) (m : MethodRef) : Method := (p.methods[m.index]?).getD default

/-- The parameter that a reference denotes. -/
def param (p : Program) (r : ParamRef) : Param :=
  ((p.method r.method).params[r.index]?).getD default

/-- The type added under the given name. -/
def typeNamed (p : Program) (name : String) : Option TypeRef := p.byName.lookup name

/-- The name of the type that declares a method, empty without one. -/
def enclosingName (p : Program) (m : MethodRef) : String :=
  match (p.method m).enclosing with
  | some t => (p.type t).name
  | none => ""

/-- The key of a method. -/
def key (p : Program) (m : MethodRef) : MethodKey :=
  ⟨p.enclosingName m, (p.method m).signature⟩

/-- The text of a method's key. -/
def keyText (p : Program) (m : MethodRef) : String := (p.key m).text

/-- The member signature of a method: `Type::name(descriptors)`. -/
def memberText (p : Program) (m : MethodRef) : String :=
  let method := p.method m
  p.enclosingName m ++ "::" ++ method.name ++ "("
    ++ String.join (method.params.map fun x => x.type.descriptor) ++ ")"

/-- The flat name under which a static call of the method is written. -/
def flatName (p : Program) (m : MethodRef) : String :=
  match (p.method m).enclosing with
  | some t => (p.type t).name ++ "$" ++ (p.method m).name
  | none => (p.method m).name

/-- The directly declared method with the given signature. -/
def ownMethod? (p : Program) (t : TypeRef) (signature : String) : Option MethodRef :=
  (p.type t).methods.find? fun m => (p.method m).signature == signature

/-- The type of an expression; the implicit receiver has none. -/
def exprType (p : Program) : Expr → TypeName
  | .absent => ""
  | .call _ _ target _ => (p.method target).result
  | .implicitThis _ => ""
  | .this _ t => (p.type t).name
  | .param _ x => (p.param x).type
  | .local _ v => v.type
  | .new _ t => (p.type t).name
  | .literal _ _ type => type

/-- A body that a default method may have: a fragment, or at least one statement. -/
def Body.isUsable : Body → Bool
  | .code _ (some block) => !block.stmts.isEmpty
  | .code _ none => false
  | .native _ func _ => func.isSome

/-- A default method: an instance method of an interface with a usable body. -/
def isDefault (p : Program) (m : MethodRef) : Bool :=
  let method := p.method m
  match method.enclosing with
  | none => false
  | some t =>
    (p.type t).isInterface && !method.static && !method.isInitializer
      && (method.body.map Body.isUsable).getD false

/-- The default methods that a type declares. -/
def defaultsOf (p : Program) (t : TypeRef) : List MethodRef :=
  (p.type t).methods.filter p.isDefault

/-- The static implementation recorded for a method. -/
def staticOf? (p : Program) (m : MethodRef) : Option MethodRef :=
  (p.statics.lookup (p.key m)).bind fun id => p.arena[id]?

/-- All methods of the program's types, type by type. -/
def declaredMethods (p : Program) : List MethodRef :=
  p.declared.flatMap fun t => (p.type t).methods

/-! ## Changing one declaration -/

/-- Changes a type. -/
def updateType (p : Program) (t : TypeRef) (f : DeclaredType → DeclaredType) : Program :=
  { p with types := p.types.modify t.index f }

/-- Changes a method. -/
def updateMethod (p : Program) (m : MethodRef) (f : Method → Method) : Program :=
  { p with methods := p.methods.modify m.index f }

/-- Gives a method a body. -/
def setBody (p : Program) (m : MethodRef) (body : Option Body) : Program :=
  p.updateMethod m fun method => { method with body := body }

/-! ## Building -/

/-- A new type outside the program. -/
def newType (p : Program) (t : DeclaredType) : TypeRef × Program :=
  (⟨p.types.length⟩, { p with types := p.types ++ [t] })

/-- A new method outside every type. -/
def newMethod (p : Program) (m : Method) : MethodRef × Program :=
  (⟨p.methods.length⟩, { p with methods := p.methods ++ [m] })

/-- Gives a method the next index of the arena, unless it has one. -/
def register (p : Program) (m : MethodRef) : Program :=
  if (p.method m).id.isSome then p
  else
    { p.updateMethod m fun method => { method with id := some p.arena.length } with
      arena := p.arena ++ [m] }

/-- Appends a method to a type. -/
def appendMethod (p : Program) (t : TypeRef) (m : MethodRef) : Program :=
  let p := p.updateMethod m fun method => { method with enclosing := some t }
  let p := p.updateType t fun type => { type with methods := type.methods ++ [m] }
  if (p.type t).attached then p.register m else p

/-- Adds a method to a type, unless another type has it. -/
def addMethod (p : Program) (t : TypeRef) (m : MethodRef) : Except Fault Program :=
  match (p.method m).enclosing with
  | some owner =>
    if owner = t then .ok (p.appendMethod t m)
    else .error (.methodOwned (p.method m).signature (p.type owner).name)
  | none => .ok (p.appendMethod t m)

/-- Adds a type with its methods to the program. -/
def addType (p : Program) (t : TypeRef) : Except AddTypeError Program :=
  let name := (p.type t).name
  if (p.typeNamed name).isSome then .error (.duplicate name)
  else if (p.type t).attached then .error (.owned name)
  else
    let p := p.updateType t fun type => { type with attached := true }
    let p := { p with declared := p.declared ++ [t], byName := p.byName ++ [(name, t)] }
    .ok ((p.type t).methods.foldl register p)

/-- Appends a parameter, unless the parameter list is closed. -/
def addParam (p : Program) (m : MethodRef) (param : Param) : Except Fault Program :=
  if (p.method m).frozen then .error (.parametersFrozen param.name (p.keyText m))
  else .ok (p.updateMethod m fun method => { method with params := method.params ++ [param] })

/-- Closes the parameter list. -/
def freezeParams (p : Program) (m : MethodRef) : Program :=
  p.updateMethod m fun method => { method with frozen := true }

/-- Records that a method overrides another. -/
def addOverride (p : Program) (m overridden : MethodRef) : Program :=
  p.updateMethod m fun method =>
    if overridden ∈ method.overrides then method
    else { method with overrides := method.overrides ++ [overridden] }

/-- Records the static implementation of a method.  What was recorded does not change. -/
def recordStatic (p : Program) (m impl : MethodRef) : Except Fault Program :=
  match (p.method impl).id with
  | none => .error (.implUnattached (p.keyText impl) (p.keyText m))
  | some id =>
    if p.arena[id]? ≠ some impl then .error (.implUnattached (p.keyText impl) (p.keyText m))
    else
      match p.statics.lookup (p.key m) with
      | none => .ok { p with statics := p.statics ++ [(p.key m, id)] }
      | some known =>
        if known = id then .ok p
        else .error (.implConflict (p.keyText m)
          ((p.arena[known]?.map p.keyText).getD ""))

end Program

/-- The wording of an error. -/
def AddTypeError.message : AddTypeError → String
  | .duplicate name => "duplicate type " ++ Text.quoted name
  | .owned name => "type " ++ Text.quoted name ++ " already belongs to a program"

end DefaultLowering
