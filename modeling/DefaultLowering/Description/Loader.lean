import DefaultLowering.Description.Body
import DefaultLowering.Description.Reader
import DefaultLowering.Description.Version
import DefaultLowering.Fragment.Binding
import DefaultLowering.Fragment.Walk
import DefaultLowering.Lowering.Names
import DefaultLowering.Program.Subtyping

/-!
# Loading a description

A program is built from a description in three rounds: all types and methods are declared, then the
supertypes are linked, then the bodies are built, so that a body may refer to everything.  The first
problem ends the loading.
-/

namespace DefaultLowering.Description

/-! ## Declaring -/

/-- Checks the parameters of a method and gives them their positions.  `seen` holds the names of those
in front. -/
def buildParams (file method : String) (seen : List String) :
    List Param → Except Problem (List DefaultLowering.Param)
  | [] => .ok []
  | x :: xs => do
    if x.name == "" || x.type == "" then throw ⟨x.line, .paramIncomplete method⟩
    if seen.contains x.name then throw ⟨x.line, .duplicateParam method x.name⟩
    let rest ← buildParams file method (x.name :: seen) xs
    return ⟨x.name, x.type, x.final, ⟨file, x.line⟩⟩ :: rest

/-- A method without its body.  One with neither body nor fragment is abstract. -/
def buildMethod (file : String) (m : Method) : Except Problem DefaultLowering.Method := do
  let hasBody := m.body.isPresent
  let hasFragment := m.native.isSome
  if m.name == "" then throw ⟨m.line, .methodUnnamed⟩
  if hasBody && hasFragment then throw ⟨m.line, .bodyAndFragment m.name⟩
  if m.abstract && (hasBody || hasFragment) then throw ⟨m.line, .abstractWithBody m.name⟩
  let params ← buildParams file m.name [] m.params
  return { name := m.name
           result := if m.returns == "" then "void" else m.returns
           pos := ⟨file, m.line⟩
           access := m.access
           static := m.static
           abstract := !hasBody && !hasFragment
           native := hasFragment
           final := m.final
           thrown := m.throws
           params := params
           frozen := true }

/-- Declares the methods of a type. -/
def declareMethods (file : String) (t : TypeRef) (typeName : String) :
    List Method → Program → Except Problem Program
  | [], p => .ok p
  | m :: ms, p => do
    let method ← buildMethod file m
    if (p.ownMethod? t method.signature).isSome then
      throw ⟨m.line, .duplicateMethod typeName method.signature⟩
    let (ref, p) := p.newMethod method
    declareMethods file t typeName ms (p.appendMethod t ref)

/-- The kind that a word names; no word at all names a class. -/
def kindOf? (word : String) : Option TypeKind :=
  if word == "" || word == "class" then some .classType
  else if word == "interface" then some .interfaceType
  else none

/-- Declares a type with its methods. -/
def declareType (file : String) (d : TypeDecl) (p : Program) : Except Problem Program := do
  if d.name == "" then throw ⟨d.line, .typeUnnamed⟩
  match kindOf? d.kind with
  | none => throw ⟨d.line, .unknownKind d.name d.kind⟩
  | some kind =>
    let (t, p) := p.newType
      { name := d.name, kind := kind, pos := ⟨file, d.line⟩, abstract := d.abstract }
    let p ← declareMethods file t d.name d.methods p
    match p.addType t with
    | .ok p => return p
    | .error _ => throw ⟨d.line, .duplicateType d.name⟩

/-- Declares types one after the other. -/
def declareTypes (file : String) : List TypeDecl → Program → Except Problem Program
  | [], p => .ok p
  | d :: ds, p => do
    let p ← declareType file d p
    declareTypes file ds p

/-! ## Linking -/

/-- Looks up interfaces by name. -/
def resolveInterfaces (p : Program) (d : TypeDecl) : List String → Except Problem (List TypeRef)
  | [] => .ok []
  | name :: names =>
    match p.typeNamed name with
    | none => .error ⟨d.line, .unknownInterface d.name name⟩
    | some t =>
      if (p.type t).isInterface then do
        let ts ← resolveInterfaces p d names
        return t :: ts
      else .error ⟨d.line, .notAnInterface d.name name⟩

/-- Looks up the superclass, of which there is at most one. -/
def resolveSuperclass (p : Program) (d : TypeDecl) : Except Problem (Option TypeRef) :=
  match d.extending with
  | [] => .ok none
  | [name] =>
    match p.typeNamed name with
    | none => .error ⟨d.line, .unknownSuperclass d.name name⟩
    | some t =>
      if (p.type t).isInterface then .error ⟨d.line, .extendsInterface d.name (p.type t).name⟩
      else .ok (some t)
  | _ => .error ⟨d.line, .severalSuperclasses d.name⟩

/-- Links a type to its supertypes. -/
def linkType (p : Program) (t : TypeRef) (d : TypeDecl) : Except Problem Program := do
  if (p.type t).isInterface then
    if !d.implementing.isEmpty then throw ⟨d.line, .interfaceImplements d.name⟩
    let supers ← resolveInterfaces p d d.extending
    return p.updateType t fun x => { x with interfaces := supers }
  else
    let super ← resolveSuperclass p d
    let interfaces ← resolveInterfaces p d d.implementing
    return p.updateType t fun x => { x with super := super, interfaces := interfaces }

/-- Links types one after the other. -/
def linkTypes : List (TypeRef × TypeDecl) → Program → Except Problem Program
  | [], p => .ok p
  | (t, d) :: ds, p => do
    let p ← linkType p t d
    linkTypes ds p

/-- The type is among its own superclasses. -/
def isCyclic (p : Program) (t : TypeRef) : Bool :=
  match (p.type t).super with
  | some s => p.isSubtype s t
  | none => false

/-- Refuses classes that inherit from themselves. -/
def checkCycles (p : Program) : Except Problem Unit :=
  match p.declared.find? (isCyclic p) with
  | some t => .error ⟨(p.type t).pos.line, .cyclicInheritance (p.type t).name⟩
  | none => .ok ()

/-! ## Bodies -/

/-- Links the method references of a fragment. -/
def linkIdents (index : MemberIndex) (pos : Pos) :
    List String → List Program.Linkage → Except String (List Program.Linkage)
  | [], refs => .ok refs
  | ident :: idents, refs =>
    match index.lookup ident with
    | none => .error ident
    | some m => linkIdents index pos idents (Program.addLinkage refs ⟨pos, ident, some m⟩)

/-- Reads the fragment of a native method. -/
def buildFragment (p : Program) (index : MemberIndex) (m : MethodRef)
    (source : String) : Except Problem Program :=
  let method := p.method m
  match Fragment.parse source (method.params.map (·.name)) (Fragment.Chain.ofRoot p.globals) with
  | .error e => .error ⟨method.pos.line, .fragment method.name e⟩
  | .ok (f, chain) =>
    match linkIdents index method.pos (f.memberIdents.filter Fragment.isMethodIdent) [] with
    | .error ident => .error ⟨method.pos.line, .unknownReference method.name ident⟩
    | .ok refs =>
      .ok ({ p with globals := chain.root.names }.setBody m (some (.native method.pos (some f) refs)))

/-- Gives a method its body. -/
def buildMethodBody (file : String) (index : MemberIndex) (m : MethodRef) (d : Method)
    (p : Program) : Except Problem Program :=
  match d.native with
  | some source => buildFragment p index m source
  | none => do
    let body ← buildBody ⟨p, file, m⟩ d.body
    return p.setBody m body

/-- Gives methods their bodies one after the other. -/
def buildBodies (file : String) (index : MemberIndex) :
    List (MethodRef × Method) → Program → Except Problem Program
  | [], p => .ok p
  | (m, d) :: ds, p => do
    let p ← buildMethodBody file index m d p
    buildBodies file index ds p

/-! ## Loading -/

/-- Builds the program that a description describes. -/
def build (file : String) (x : Description) : Except Problem Program := do
  let p ← declareTypes file x.types {}
  let p ← linkTypes (p.declared.zip x.types) p
  checkCycles p
  let (index, _) := NameCache.index {} p
  buildBodies file index (p.declaredMethods.zip (x.types.flatMap (·.methods))) p

/-- Why a text cannot be loaded. -/
inductive LoadError where
  /-- The text is no YAML. -/
  | malformed (m : Yaml.Malformed)
  /-- Decoding ended early. -/
  | refused (r : Yaml.Refusal)
  /-- Some values do not fit. -/
  | unfit (problems : List Yaml.Problem)
  | version (problem : VersionProblem)
  | program (problem : Problem)
  deriving Inhabited

/-- The wording of an error in a file. -/
def LoadError.message (file : String) : LoadError → String
  | .malformed m => "parse " ++ file ++ ": " ++ m.message
  | .refused r => "parse " ++ file ++ ": " ++ r.message
  | .unfit problems => "parse " ++ file ++ ": " ++ Yaml.problemsMessage problems
  | .version problem => file ++ ": unsupported program format version: " ++ problem.message
  | .program problem => problem.message file

/-- Checks the version of a description and builds its program. -/
def load (file : String) (x : Description) : Except LoadError Program :=
  match requireVersion x.version with
  | .error problem => .error (.version problem)
  | .ok () =>
    match x.build file with
    | .error problem => .error (.program problem)
    | .ok p => .ok p

/-- Reads a description from its text. -/
def parse (text : String) : Except LoadError Description :=
  match Yaml.parse text with
  | .error m => .error (.malformed m)
  | .ok d =>
    match (ofDocument d).result with
    | .error r => .error (.refused r)
    | .ok (.error problems) => .error (.unfit problems)
    | .ok (.ok x) => .ok x

/-- Loads a program from the text of its description. -/
def loadText (file text : String) : Except LoadError Program := do
  let x ← parse text
  x.load file

end DefaultLowering.Description
