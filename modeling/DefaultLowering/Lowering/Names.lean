import DefaultLowering.Program.Basic

/-!
# Member identifiers

A fragment refers to a method of the program by its member identifier, `@` and the member signature.
Identifiers are remembered under the key of their method, and an identifier once remembered is used
again for every method with the same key.
-/

namespace DefaultLowering

/-- The identifiers remembered so far. -/
structure NameCache where
  idents : List (MethodKey × String) := []
  deriving Inhabited

/-- Methods by their identifiers. -/
abbrev MemberIndex := List (String × MethodRef)

namespace NameCache

/-- The identifier of a method, and the cache that remembers it. -/
def identOf (c : NameCache) (p : Program) (m : MethodRef) : String × NameCache :=
  match c.idents.lookup (p.key m) with
  | some ident => (ident, c)
  | none =>
    let ident := "@" ++ p.memberText m
    (ident, ⟨c.idents ++ [(p.key m, ident)]⟩)

/-- How many identifiers are remembered. -/
def size (c : NameCache) : Nat := c.idents.length

/-- Adds the identifiers of methods to an index.  The first method with an identifier keeps it. -/
def indexMethods (p : Program) :
    List MethodRef → MemberIndex → NameCache → MemberIndex × NameCache
  | [], index, c => (index, c)
  | m :: ms, index, c =>
    let (ident, c) := c.identOf p m
    let index := if (index.lookup ident).isSome then index else index ++ [(ident, m)]
    indexMethods p ms index c

/-- The methods of the program by their identifiers. -/
def index (c : NameCache) (p : Program) : MemberIndex × NameCache :=
  indexMethods p p.declaredMethods [] c

end NameCache

end DefaultLowering
