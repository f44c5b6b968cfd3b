/-!
# Type names

A type is named by its source text: a primitive keyword, the name of a declared type, or either
followed by any number of `[]`.  Member references inside fragments name parameter types by their
descriptors: a letter for a primitive type, `L…;` with slashes for dots for a declared one, and a `[`
in front for each `[]`.
-/

namespace DefaultLowering

/-- The source text of a type. -/
abbrev TypeName := String

namespace TypeName

/-- The primitive types and their descriptors. -/
def primitives : List (String × Char) :=
  [("void", 'V'), ("boolean", 'Z'), ("byte", 'B'), ("char", 'C'), ("short", 'S'), ("int", 'I'),
   ("long", 'J'), ("float", 'F'), ("double", 'D')]

/-- The type carries no value. -/
def isVoid (t : TypeName) : Bool :=
  t == "void" || t == ""

/-- The type is a primitive keyword. -/
def isPrimitive (t : TypeName) : Bool :=
  (primitives.lookup t).isSome

/-- The text before a final `[]`. -/
def elemChars? (cs : List Char) : Option (List Char) :=
  match cs.reverse with
  | ']' :: '[' :: rest => some rest.reverse
  | _ => none

/-- The element type of an array type. -/
def elem? (t : TypeName) : Option TypeName :=
  (elemChars? t.toList).map String.ofList

theorem length_lt_of_elemChars? {cs es : List Char} (h : elemChars? cs = some es) :
    es.length < cs.length := by
  unfold elemChars? at h
  split at h
  · next rest hr =>
    have hlen : cs.reverse.length = rest.length + 2 := by rw [hr]; simp
    simp only [Option.some.injEq] at h
    subst h
    simp only [List.length_reverse] at hlen ⊢
    omega
  · simp at h

/-- The descriptor of a type that is no array. -/
def plainDescriptor (cs : List Char) : List Char :=
  match primitives.lookup (String.ofList cs) with
  | some d => [d]
  | none =>
    if cs.isEmpty then ['V']
    else 'L' :: (cs.map fun c => if c = '.' then '/' else c) ++ [';']

/-- The descriptor of the type with the given text. -/
def descriptorChars (cs : List Char) : List Char :=
  match _h : elemChars? cs with
  | some es => '[' :: descriptorChars es
  | none => plainDescriptor cs
  termination_by cs.length
  decreasing_by exact length_lt_of_elemChars? _h

/-- The descriptor by which member references name the type. -/
def descriptor (t : TypeName) : String :=
  String.ofList (descriptorChars t.toList)

/-- The text of the type in a listing; no type at all reads `void`. -/
def display (t : TypeName) : String :=
  if t = "" then "void" else t

end TypeName

end DefaultLowering
