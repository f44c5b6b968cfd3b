import DefaultLowering.Fragment.Walk
import DefaultLowering.Program.Walk
import DefaultLowering.Lowering.Forwarder
import DefaultLowering.Lowering.Names

/-!
# Retargeting calls and fragments

Every use of a default method is turned into a use of its twin.  A call of the method becomes a static
call of the twin with the receiver as its first argument.  In a fragment, the linkage entries of default
methods are turned over to their twins, the member references that bore their identifiers are renamed,
and an invocation through such a reference passes the qualifier as its first argument.

Twins are made when they are first needed, also of the very method whose body is being walked.
-/

namespace DefaultLowering

/-- How much was retargeted. -/
structure RetargetCounts where
  /-- Typed calls. -/
  calls : Nat := 0
  /-- Member references that are not invoked. -/
  references : Nat := 0
  /-- Invocations of member references. -/
  invocations : Nat := 0
  /-- Fragments with at least one linkage entry of a default method. -/
  fragments : Nat := 0
  deriving DecidableEq, Repr, Inhabited

/-- What retargeting carries along. -/
structure Retargeting where
  twinLog : TwinLog
  cache : NameCache
  counts : RetargetCounts := {}
  deriving Inhabited

/-- Identifiers and what they become. -/
abbrev Renames := List (String × String)

namespace Fragment

/-! ## Fragments -/

/-- What is counted while a fragment is retargeted. -/
structure RenameCounts where
  references : Nat := 0
  invocations : Nat := 0
  deriving DecidableEq, Repr, Inhabited

/-- The level of the scope that an invocation through the qualifier `q` belongs to: that of the first
    resolved name in the chain of qualifiers, or `own`, the level of the outermost function, for
    `this`. -/
def qualifierLevel (ident : String) (own : Nat) : (q : Expr) → Except Fault Nat
  | .name _ _ (some level) => .ok level
  | .name _ q none => qualifierLevel ident own q
  | .this => .ok own
  | .absent => .error (.noDeclaredQualifier ident)
  | x => .error (.unresolvableQualifier ident (Node.expr x).typeName)

/-- Renames the member reference or the invocation that has been visited. -/
def renameLeave (renames : Renames) (place : Place) (n : Node) :
    Walk RenameCounts Node := do
  match n with
  | .expr (.name ident q level) =>
    if place = .callee then return n
    match renames.lookup ident with
    | none => return .expr (.name ident q level)
    | some new =>
      modify fun s => { s with user := { s.user with references := s.user.references + 1 } }
      return .expr (.name new .absent none)
  | .expr (.call (.name ident q level) args) =>
    match renames.lookup ident with
    | none => return .expr (.call (.name ident q level) args)
    | some new =>
      -- the innermost scopes are those of functions, the last one is the root
      let own := (← get).scopes.length - 2
      match qualifierLevel ident own q with
      | .error fault => Walk.halt fault; return n
      | .ok level =>
        Walk.declareAt level new
        modify fun s => { s with user := { s.user with invocations := s.user.invocations + 1 } }
        return .expr (.call (.name new .absent (some level)) (q :: args))
  | n => return n

/-- The visitor that renames the references of a fragment. -/
def renameVisitor (renames : Renames) : Visitor RenameCounts where
  enter _ _ := return {}
  leave slot := renameLeave renames slot.place

/-- Renames the references of a function whose scope lies in a root that declares `globals`. -/
def Function.rename (f : Function) (renames : Renames) (globals : List String) :
    Walked RenameCounts :=
  runWalk (renameVisitor renames) 0 (.function f) [globals] {}

end Fragment

namespace Program

/-- The linkage without the entries whose identifier repeats an earlier one. -/
def distinctLinkage (refs : List Linkage) : List Linkage :=
  refs.foldl addLinkage []

/-! ## Twins on demand -/

/-- The twin of a method, made if there is none.  When it takes over the body that is being walked,
    the walk goes on in the twin. -/
def twinFor (m : MethodRef) : Walk Retargeting (Option MethodRef) := do
  let s ← get
  match s.program.requestTwin m with
  | .known twin => return some twin
  | .made twin p relocation =>
    set { s with
      program := p
      user := { s.user with twinLog := ⟨s.user.twinLog.made ++ [twin]⟩ } }
    if m = s.owner then
      Walk.move relocation
      modify fun s => { s with owner := twin }
    return some twin
  | .failed fault p relocation =>
    set { s with program := p }
    Walk.halt fault
    if m = s.owner then
      match relocation with
      | some r => Walk.move r
      | none => pure ()
    return none

/-! ## Calls -/

/-- The first argument that a retargeted call passes for its receiver. -/
def receiverArg (pos : Pos) (self : TypeRef) : Expr → Expr
  | .absent => .this pos self
  | .implicitThis _ => .this pos self
  | x => x

/-- Retargets a call of a default method, met in a body of `method`. -/
def retargetCall (method : Option MethodRef) (pos : Pos) (receiver : Expr) (target : MethodRef)
    (args : List Expr) : Walk Retargeting Node := do
  let ((receiver, args), twin) ←
    Walk.holding (fun r (x : Expr × List Expr) => (r.expr x.1, r.exprs x.2)) (receiver, args)
      (twinFor target)
  match twin with
  | none => return .expr (.call pos receiver target args)
  | some twin =>
    let s ← get
    let self := ((s.program.method (method.getD target)).enclosing).getD default
    set { s with user := { s.user with
      counts := { s.user.counts with calls := s.user.counts.calls + 1 } } }
    return .expr (.call pos .absent twin (receiverArg pos self receiver :: args))

/-! ## Linkage -/

/-- Turns the linkage entries of default methods over to their twins.  The first list holds the
    entries done; the result holds all entries and the new identifiers by the old ones. -/
def retargetLinkage : (done : List Linkage) → (renames : Renames) →
    List Linkage → Walk Retargeting (List Linkage × Renames)
  | done, renames, [] => return (done, renames)
  | done, renames, r :: rest => do
    if ← Walk.halted then return (done ++ r :: rest, renames)
    match r.target with
    | none => retargetLinkage (done ++ [r]) renames rest
    | some target =>
      if !(← get).program.isDefault target then retargetLinkage (done ++ [r]) renames rest
      else
        match ← twinFor target with
        | none => return (done ++ r :: rest, renames)
        | some twin =>
          let s ← get
          let (ident, cache) := s.user.cache.identOf s.program twin
          set { s with user := { s.user with cache := cache } }
          retargetLinkage (done ++ [{ r with ident := ident, target := some twin }])
            (renames ++ [(r.ident, ident)]) rest

/-- Retargets a fragment. -/
def retargetFragment (pos : Pos) (func : Option Fragment.Function) (refs : List Linkage) :
    Walk Retargeting Node := do
  let (func, refs, renames) ←
    Walk.holding (fun _ => Option.map Fragment.Function.withReceiver) func
      (retargetLinkage [] [] refs)
  if ← Walk.halted then return .body (.native pos func refs)
  if renames.isEmpty then return .body (.native pos func refs)
  let refs := distinctLinkage refs
  match func with
  | none => return .body (.native pos none refs)
  | some f =>
    let s ← get
    let renamed := f.rename renames s.program.globals
    let f := match renamed.node with
      | .function g => g
      | _ => f
    let program := { s.program with globals := renamed.scopes.headD [] }
    match renamed.fault with
    | some fault =>
      set { s with program := program }
      Walk.halt fault
    | none =>
      let counts := s.user.counts
      set { s with
        program := program
        user := { s.user with counts := { counts with
          references := counts.references + renamed.user.references
          invocations := counts.invocations + renamed.user.invocations
          fragments := counts.fragments + 1 } } }
    return .body (.native pos (some f) refs)

/-! ## The visitor -/

/-- Retargets the node that has been visited, in a body of `method`. -/
def retarget (method : Option MethodRef) (n : Node) : Walk Retargeting Node := do
  match n with
  | .expr (.call pos receiver target args) =>
    if (← get).program.isDefault target then retargetCall method pos receiver target args
    else return .expr (.call pos receiver target args)
  | .body (.native pos func refs) => retargetFragment pos func refs
  | n => return n

/-- Retargets the bodies of all methods. -/
def retargetAll (p : Program) (state : Retargeting) : Walked Retargeting :=
  walkProgram (fun m => retarget (some m)) p state

/-- Retargets one body on its own. -/
def retargetMethod (p : Program) (m : MethodRef) (state : Retargeting) : Walked Retargeting :=
  walkMethod (retarget none) m { program := p, user := state }

end Program

end DefaultLowering
