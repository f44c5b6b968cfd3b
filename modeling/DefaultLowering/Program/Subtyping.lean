import DefaultLowering.Program.Basic

/-!
# Supertypes

A type is a subtype of every type that its superclass and interface links lead to, itself included.
The links may form cycles.  The supertypes are found by following all links at once until a round adds
no type, which is the case after as many rounds as there are types at the latest.
-/

namespace DefaultLowering.Program

/-- The types that one link leads to. -/
def directSupertypes (p : Program) (t : TypeRef) : List TypeRef :=
  (p.type t).super.toList ++ (p.type t).interfaces

/-- Adds to a list what it does not hold yet. -/
def addMissing (xs ys : List TypeRef) : List TypeRef :=
  ys.foldl (fun acc y => if y ∈ acc then acc else acc ++ [y]) xs

/-- Follows every link from the given types once. -/
def stepUp (p : Program) (ts : List TypeRef) : List TypeRef :=
  addMissing ts (ts.flatMap p.directSupertypes)

/-- Follows links until no type is added, up to `n` times. -/
def climb (p : Program) : Nat → List TypeRef → List TypeRef
  | 0, ts => ts
  | n + 1, ts =>
    let next := p.stepUp ts
    if next.length = ts.length then ts else climb p n next

/-- All types that links lead to from `t`, with `t` itself. -/
def supertypes (p : Program) (t : TypeRef) : List TypeRef :=
  p.climb p.types.length [t]

/-- `t` is, extends or implements `u`, directly or through other types. -/
def isSubtype (p : Program) (t u : TypeRef) : Bool :=
  (p.supertypes t).contains u

/-- The classes of the program that implement an interface, in the order of their declaration. -/
def implementors (p : Program) (iface : TypeRef) : List TypeRef :=
  p.declared.filter fun t => !(p.type t).isInterface && p.isSubtype t iface

end DefaultLowering.Program
