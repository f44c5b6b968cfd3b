import DefaultLowering.Fragment.Token
import DefaultLowering.Program.Body

/-!
# What may be wrong with a description

Every problem belongs to a line of the description.
-/

namespace DefaultLowering.Description

/-- What may be wrong inside a typed body. -/
inductive BodyCause where
  | notAList
  | notAStatement
  | missingValue
  | unknownStatement (word : String)
  | localIncomplete
  | alreadyDeclared (name : String)
  | notAnExpression
  | missingExpression
  /-- A record that does not fit, with the report on it. -/
  | unreadable (report : String)
  | literalAndCall
  | untypedLiteral (text : String)
  | neitherLiteralNorCall
  | thisInStatic
  | unknownType (name : String)
  | notInstantiable (name : String)
  | unknownName (name : String)
  | malformedTarget (target : String)
  | targetWithoutType (target : String)
  | unknownMethod (type signature : String)
  | receiverOfStatic (target : String)
  | receiverMissing (target : String)
  | argumentCount (target : String) (wanted got : Nat)
  deriving DecidableEq, Repr, Inhabited

/-- The wording of a cause. -/
def BodyCause.message : BodyCause → String
  | .notAList => "body must be a list of statements"
  | .notAStatement => "statement must be a single-key mapping"
  | .missingValue => "missing return value"
  | .unknownStatement word => "unknown statement " ++ Text.quoted word
  | .localIncomplete => "local needs a name and a type"
  | .alreadyDeclared name => name ++ " is already declared"
  | .notAnExpression => "expression must be a scalar or a mapping"
  | .missingExpression => "missing expression"
  | .unreadable report => report
  | .literalAndCall => "expression is both a literal and a call"
  | .untypedLiteral text => "literal " ++ text ++ " needs a type"
  | .neitherLiteralNorCall => "expression mapping needs a lit or call key"
  | .thisInStatic => "this in static method"
  | .unknownType name => "unknown type " ++ name
  | .notInstantiable name => "cannot instantiate " ++ name
  | .unknownName name => "unknown name " ++ name
  | .malformedTarget target =>
    "call target " ++ Text.quoted target ++ " is not of the form Type.name(params)"
  | .targetWithoutType target => "call target " ++ Text.quoted target ++ " has no type"
  | .unknownMethod type signature => "type " ++ type ++ " has no method " ++ signature
  | .receiverOfStatic target => "static method " ++ target ++ " called on a receiver"
  | .receiverMissing target =>
    "instance method " ++ target ++ " called without a receiver from a static method"
  | .argumentCount target wanted got =>
    target ++ " takes " ++ toString wanted ++ " argument(s), got " ++ toString got

/-- What may be wrong with a declaration. -/
inductive Cause where
  | typeUnnamed
  | unknownKind (type kind : String)
  | duplicateType (name : String)
  | methodUnnamed
  | bodyAndFragment (method : String)
  | abstractWithBody (method : String)
  | paramIncomplete (method : String)
  | duplicateParam (method param : String)
  | duplicateMethod (type signature : String)
  | interfaceImplements (name : String)
  | severalSuperclasses (name : String)
  | unknownSuperclass (name super : String)
  | extendsInterface (name super : String)
  | unknownInterface (type name : String)
  | notAnInterface (type name : String)
  | cyclicInheritance (name : String)
  | body (method : String) (cause : BodyCause)
  | fragment (method : String) (cause : Fragment.SyntaxError)
  | unknownReference (method ident : String)
  deriving DecidableEq, Repr, Inhabited

/-- The wording of a cause. -/
def Cause.message : Cause → String
  | .typeUnnamed => "type without a name"
  | .unknownKind type kind => "type " ++ type ++ ": unknown kind " ++ Text.quoted kind
  | .duplicateType name => "duplicate type " ++ Text.quoted name
  | .methodUnnamed => "method without a name"
  | .bodyAndFragment m => "method " ++ m ++ ": both body and native fragment"
  | .abstractWithBody m => "method " ++ m ++ ": abstract method with a body"
  | .paramIncomplete m => "method " ++ m ++ ": parameter needs a name and a type"
  | .duplicateParam m p => "method " ++ m ++ ": duplicate parameter " ++ p
  | .duplicateMethod type signature => "type " ++ type ++ ": duplicate method " ++ signature
  | .interfaceImplements name =>
    "interface " ++ name ++ ": interfaces extend, they do not implement"
  | .severalSuperclasses name => "class " ++ name ++ ": more than one superclass"
  | .unknownSuperclass name super => "class " ++ name ++ ": unknown superclass " ++ super
  | .extendsInterface name super => "class " ++ name ++ ": cannot extend interface " ++ super
  | .unknownInterface type name => "type " ++ type ++ ": unknown interface " ++ name
  | .notAnInterface type name => "type " ++ type ++ ": " ++ name ++ " is not an interface"
  | .cyclicInheritance name => "class " ++ name ++ ": cyclic inheritance"
  | .body m cause => "method " ++ m ++ ": " ++ cause.message
  | .fragment m cause => "method " ++ m ++ ": " ++ cause.message
  | .unknownReference m ident => "method " ++ m ++ ": unknown method " ++ ident

/-- A problem and its line. -/
structure Problem where
  line : Nat
  cause : Cause
  deriving DecidableEq, Repr, Inhabited

/-- The wording of a problem in a file. -/
def Problem.message (file : String) (x : Problem) : String :=
  (Pos.mk file x.line).text ++ ": " ++ x.cause.message

end DefaultLowering.Description
