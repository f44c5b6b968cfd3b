import DefaultLowering.Fragment.Walk
import DefaultLowering.Lowering.Names
import DefaultLowering.Program.Subtyping
import DefaultLowering.Program.Walk

/-!
# Checking a lowered program

A lowered program has no use of a default method left: no call and no linkage entry targets one, no
member reference of a fragment bears the identifier of one, and each class that implements an interface
declares a method of its own for each of the interface's default methods.

The problems are listed type by type; for each type those of its methods' bodies come first, then those
of its implementors.
-/

namespace DefaultLowering

/-- What is wrong with a lowered program. -/
inductive ProblemCause where
  | call (target : String)
  | linkage (target : String)
  | reference (target : String)
  | missingMethod (implementor signature : String)
  deriving DecidableEq, Repr, Inhabited

/-- The wording of a cause. -/
def ProblemCause.message : ProblemCause → String
  | .call target => "call still targets default method " ++ target
  | .linkage target => "fragment linkage still targets default method " ++ target
  | .reference target => "fragment still references default method " ++ target
  | .missingMethod implementor signature =>
    "implementor " ++ implementor ++ " has no method " ++ signature

/-- A problem, where it is, and the method it concerns. -/
structure Problem where
  pos : Pos
  method : String
  cause : ProblemCause
  deriving DecidableEq, Repr, Inhabited

/-- The line of a problem. -/
def Problem.text (x : Problem) : String :=
  x.pos.text ++ ": " ++ x.method ++ ": " ++ x.cause.message

/-- The report on a list of problems. -/
def problemsMessage (problems : List Problem) : String :=
  "verification failed: " ++ toString problems.length ++ " problem(s)\n"
    ++ String.intercalate "\n" (problems.map Problem.text)

namespace Program

/-- The problem with a node of a typed body or of the linkage, if there is one. -/
def nodeProblem (p : Program) (m : MethodRef) : Node → Option Problem
  | .expr (.call pos _ target _) =>
    if p.isDefault target then some ⟨pos, p.keyText m, .call (p.keyText target)⟩ else none
  | .linkage ⟨pos, _, some target⟩ =>
    if p.isDefault target then some ⟨pos, p.keyText m, .linkage (p.keyText target)⟩ else none
  | _ => none

/-- The problems with the member references of a fragment. -/
def fragmentProblems (p : Program) (defaults : MemberIndex) (m : MethodRef)
    (pos : Pos) (f : Fragment.Function) : List Problem :=
  f.memberIdents.filterMap fun ident =>
    (defaults.lookup ident).map fun d => ⟨pos, p.keyText m, .reference (p.keyText d)⟩

/-- The problems with a method's body. -/
def bodyProblems (p : Program) (defaults : MemberIndex) (m : MethodRef) :
    List Problem :=
  match (p.method m).body with
  | none => []
  | some body =>
    (body.nodes fun _ => true).filterMap (p.nodeProblem m) ++
      match body with
      | .native pos (some f) _ => p.fragmentProblems defaults m pos f
      | _ => []

/-- The implementors of an interface that lack a method of their own. -/
def implementorProblems (p : Program) (t : TypeRef) : List Problem :=
  (p.defaultsOf t).flatMap fun d =>
    let signature := (p.method d).signature
    (p.implementors t).filterMap fun c =>
      if (p.ownMethod? c signature).isSome then none
      else some ⟨(p.type c).pos, p.keyText d, .missingMethod (p.type c).name signature⟩

/-- The problems with one type. -/
def typeProblems (p : Program) (defaults : MemberIndex) (t : TypeRef) :
    List Problem :=
  (p.type t).methods.flatMap (p.bodyProblems defaults)
    ++ if (p.type t).isInterface then p.implementorProblems t else []

/-- The problems with a program.  The identifiers of its methods come from the cache, which comes back
    with those it did not know. -/
def verify (p : Program) (cache : NameCache) : List Problem × NameCache :=
  let (index, cache) := cache.index p
  let defaults := index.filter fun entry => p.isDefault entry.2
  (p.declared.flatMap (p.typeProblems defaults), cache)

end Program

end DefaultLowering
