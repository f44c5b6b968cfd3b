import DefaultLowering.Lowering.Twin
import DefaultLowering.Program.Subtyping

/-!
# Forwarders

A class that implements an interface without declaring a method of its own for a default method gets a
forwarder: a method of the same shape that passes its receiver and its parameters on to the twin.  Only
the methods of the class itself count, not those of its superclasses.

Interfaces are taken in the order of their declaration, then their default methods, then the
implementing classes.
-/

namespace DefaultLowering

/-- The twins made so far in a run, in the order in which they were made. -/
structure TwinLog where
  made : List MethodRef := []
  deriving Inhabited

/-- The state of a run that adds forwarders. -/
structure Forwarding where
  program : Program
  twinLog : TwinLog
  forwarders : List MethodRef := []
  fault : Option Fault := none

namespace Forwarding

/-- The forwarder for the default method `d`, to stand in the class `t` under the reference
    `own`. -/
def forwarderFor (p : Program) (t : TypeRef) (d twin own : MethodRef) : Method :=
  let pos := (p.type t).pos
  let method := p.method d
  { name := method.name
    result := method.result
    pos := pos
    access := method.access
    synthetic := true
    thrown := method.thrown
    params := method.params.map fun x => { x with pos := pos }
    frozen := true
    overrides := [d]
    body := some (Program.passingOn pos method.result twin
      (.this pos t :: Program.paramRefs pos own method.params.length)) }

/-- Adds a forwarder to a class that declares no method with the signature of `d`. -/
def addForwarder (s : Forwarding) (d twin : MethodRef) (t : TypeRef) : Forwarding :=
  let p := s.program
  if (p.ownMethod? t (p.method d).signature).isSome then s
  else
    let (own, p) := p.newMethod (forwarderFor p t d twin ⟨p.methods.length⟩)
    { s with program := p.appendMethod t own, forwarders := s.forwarders ++ [own] }

/-- Adds the forwarders for one default method. -/
def addForwarders (s : Forwarding) (classes : List TypeRef) (d : MethodRef) : Forwarding :=
  if s.fault.isSome then s
  else
    match s.program.requestTwin d with
    | .known twin => classes.foldl (fun s t => s.addForwarder d twin t) s
    | .made twin p _ =>
      let s := { s with program := p, twinLog := ⟨s.twinLog.made ++ [twin]⟩ }
      classes.foldl (fun s t => s.addForwarder d twin t) s
    | .failed fault p _ => { s with program := p, fault := some fault }

/-- Adds the forwarders for the default methods of one type, if it is an interface that some class
    implements. -/
def addForType (s : Forwarding) (t : TypeRef) : Forwarding :=
  if s.fault.isSome || !(s.program.type t).isInterface then s
  else
    let defaults := s.program.defaultsOf t
    let classes := s.program.implementors t
    if classes.isEmpty then s
    else defaults.foldl (fun s d => s.addForwarders classes d) s

/-- Adds all forwarders that the program needs. -/
def run (p : Program) (twinLog : TwinLog) : Forwarding :=
  p.declared.foldl addForType { program := p, twinLog := twinLog }

end Forwarding

end DefaultLowering
