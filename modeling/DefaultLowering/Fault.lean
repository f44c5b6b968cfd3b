/-!
# Faults

What can stop a pass in the middle of its work.  Most faults are violated invariants: an operation
met a tree or a method that breaks one of its preconditions.  The others come from traversals, when a
tree has a hole where a node is needed or a replacement does not fit its place.
-/

namespace DefaultLowering

/-- Why a pass stopped. -/
inductive Fault where
  /-- A method was added to a second type. -/
  | methodOwned (signature owner : String)
  /-- A parameter was added to a method whose parameter list is closed. -/
  | parametersFrozen (param method : String)
  /-- A static implementation is not part of the program. -/
  | implUnattached (impl method : String)
  /-- A method has another static implementation already. -/
  | implConflict (method impl : String)
  /-- A twin was requested of a method that is no default method. -/
  | twinOfNonDefault (method : String)
  /-- A twin was requested of a method that is not part of the program. -/
  | twinOfUnattached (method : String)
  /-- The qualifiers of an invoked member reference end without a declared name. -/
  | noDeclaredQualifier (ident : String)
  /-- A qualifier of an invoked member reference is neither a name nor `this`. -/
  | unresolvableQualifier (ident typeName : String)
  /-- A node of a method body was to be replaced by one that does not fit its place. -/
  | replaceExpr (old new : String)
  | replaceStmt (old new : String)
  | replaceBody (old new : String)
  | replaceNode (old : String)
  /-- The same for a node of a fragment. -/
  | replaceFragmentExpr (old new : String)
  | replaceFragmentStmt (old new : String)
  | replaceFragmentNode (old : String)
  /-- A traversal met an absent node. -/
  | absentBodyNode
  | absentFragmentNode
  /-- A statement that is no block stands where a block is needed. -/
  | notABlock
  /-- The replacements of a traversal have no end. -/
  | unbounded
  deriving DecidableEq, Repr, Inhabited

namespace Fault

/-- The sorts of fault. -/
inductive Category where
  /-- A violated precondition of the pass. -/
  | invariant
  /-- A tree that a traversal cannot handle. -/
  | traversal
  /-- A node of the wrong shape. -/
  | shape
  deriving DecidableEq, Repr

/-- The sort of a fault. -/
def category : Fault → Category
  | replaceFragmentExpr .. | replaceFragmentStmt .. | replaceFragmentNode _ | absentBodyNode
  | absentFragmentNode => .traversal
  | notABlock | unbounded => .shape
  | _ => .invariant

/-- What went wrong, without the sort of the fault. -/
def detail : Fault → String
  | methodOwned sig owner => "method " ++ sig ++ " already belongs to " ++ owner
  | parametersFrozen param method =>
    "adding parameter " ++ param ++ " to " ++ method ++ " after its parameter types were frozen"
  | implUnattached impl method =>
    "static implementation " ++ impl ++ " of " ++ method ++ " is not attached to the program"
  | implConflict method impl => method ++ " already has static implementation " ++ impl
  | twinOfNonDefault method =>
    "static implementation requested for " ++ method ++ ", which is not a default method"
  | twinOfUnattached method =>
    "static implementation requested for unattached method " ++ method
  | noDeclaredQualifier ident =>
    "invocation of " ++ ident ++ " has no qualifier resolving to a declared name"
  | unresolvableQualifier ident typeName =>
    "cannot resolve a scope for " ++ ident ++ " through a " ++ typeName ++ " qualifier"
  | replaceExpr old new => "cannot replace expression " ++ old ++ " with " ++ new
  | replaceStmt old new => "cannot replace statement " ++ old ++ " with " ++ new
  | replaceBody old new => "cannot replace body " ++ old ++ " with " ++ new
  | replaceNode old => "cannot replace " ++ old
  | replaceFragmentExpr old new => "jsast: cannot replace expression " ++ old ++ " with " ++ new
  | replaceFragmentStmt old new => "jsast: cannot replace statement " ++ old ++ " with " ++ new
  | replaceFragmentNode old => "jsast: cannot replace " ++ old
  | absentBodyNode => "jast: unexpected node <nil>"
  | absentFragmentNode => "jsast: unexpected node <nil>"
  | notABlock => ""
  | unbounded => ""

/-- The wording of a fault. -/
def message (f : Fault) : String :=
  match f.category with
  | .invariant => "invariant violation: " ++ f.detail
  | _ => f.detail

end Fault

end DefaultLowering
