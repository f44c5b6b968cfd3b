import DefaultLowering.Proofs.References

/-!
# Shapes of types

A run looks at the kinds and links of types, at the heads of their methods, and at what bodies refer to.
All of that can be told without references into the program: types by their names, methods that are
called by their keys, and the methods that a fragment refers to by their identifiers.  So it does not
depend on the places that types and methods have in the program.

- `Mention`, `MethodShape`, `TypeShape`: what a run looks at;
- `Program.typeShape`, `TypeDecl.shape`: the shape of a type in a program, and of a described type;
- `build_shapes`: a built program has the shapes of its description, in the same order.
-/

namespace DefaultLowering

/-! ## Section 1: Shapes -/

/-- What a body refers to. -/
inductive Mention where
  /-- The keys of the methods that typed code calls. -/
  | calls (keys : List MethodKey)
  /-- The identifiers of the methods that a fragment refers to. -/
  | names (idents : List String)
  deriving DecidableEq

/-- What a run looks at in a method. -/
structure MethodShape where
  name : String
  static : Bool
  params : List TypeName
  /-- The body makes an instance method of an interface a default method. -/
  usable : Bool
  mention : Mention
  deriving DecidableEq

/-- The signature of a method of the shape. -/
def MethodShape.signature (s : MethodShape) : String :=
  s.name ++ "(" ++ String.intercalate "," s.params ++ ")"

/-- The identifier of a method of the shape in a type of the name. -/
def MethodShape.ident (s : MethodShape) (type : String) : String :=
  "@" ++ (type ++ "::" ++ s.name ++ "(" ++ String.join (s.params.map TypeName.descriptor) ++ ")")

/-- What a run looks at in a type. -/
structure TypeShape where
  name : String
  interface : Bool
  /-- The names of the types that links lead to. -/
  supers : List String
  methods : List MethodShape
  deriving DecidableEq

namespace Program

/-- The methods that the body of a method calls or is linked to. -/
def targetsIn (p : Program) (m : MethodRef) : List MethodRef :=
  ((p.method m).body.map Body.targets).getD []

/-- The identifiers of methods in a fragment. -/
def identsIn : Option Body → List String
  | some (.native _ (some f) _) => f.memberIdents.filter Fragment.isMethodIdent
  | _ => []

def mention (p : Program) (m : MethodRef) : Mention :=
  if (p.method m).native then .names (identsIn (p.method m).body)
  else .calls ((p.targetsIn m).map p.key)

def methodShape (p : Program) (m : MethodRef) : MethodShape where
  name := (p.method m).name
  static := (p.method m).static
  params := (p.method m).params.map Param.type
  usable := usable (p.method m).body
  mention := p.mention m

def typeShape (p : Program) (t : TypeRef) : TypeShape where
  name := (p.type t).name
  interface := (p.type t).isInterface
  supers := Description.typeNames p (p.directSupertypes t)
  methods := (p.type t).methods.map p.methodShape

end Program

namespace Description

open Program

def Method.mention (d : Method) : Mention :=
  match d.native with
  | some source =>
    .names (((Fragment.readFragment source (d.params.map (·.name))).toOption.map fun f =>
      f.memberIdents.filter Fragment.isMethodIdent).getD [])
  | none => .calls (d.body.calls.filterMap callKey?)

def Method.shape (d : Method) : MethodShape where
  name := d.name
  static := d.static
  params := d.params.map (·.type)
  usable := d.native.isSome || d.body.isUsable
  mention := d.mention

def TypeDecl.shape (d : TypeDecl) : TypeShape where
  name := d.name
  interface := kindOf? d.kind == some .interfaceType
  supers :=
    if kindOf? d.kind == some .interfaceType then d.extending else d.extending ++ d.implementing
  methods := d.methods.map Method.shape

/-! ## Section 2: The shapes of a built program -/

section

variable {p : Program} {m : MethodRef} {d : Method}

/-- The keys of the methods that are called are those that the calls name. -/
theorem keys_of_names {calls : List String} {ms : List MethodRef}
    (h : List.Forall₂ (Names p) calls ms) : ms.map p.key = calls.filterMap callKey? := by
  induction h with
  | nil => rfl
  | cons hname _ ih => rw [List.map_cons, List.filterMap_cons_some hname.key, ih]

theorem mention_of_bodyOf (hhead : HeadOf (p.method m) d) (hbody : BodyOf p m d) :
    p.mention m = d.mention := by
  rw [Program.mention, hhead.native, Method.mention]
  cases hd : d.native with
  | none => exact congrArg Mention.calls (keys_of_names (hbody.typed hd))
  | some source =>
    obtain ⟨pos, f, refs, hf, hread⟩ := hbody.fragment source hd
    have hparams := congrArg (List.map Prod.fst) hhead.params
    simp only [List.map_map, Function.comp_def] at hparams
    -- the fragment has been resolved in the program, but its names are those of the text
    have hidents : f.unbound.memberIdents = f.memberIdents := by
      rw [Fragment.Function.memberIdents, f.idents_unbound, Fragment.Function.memberIdents]
    rw [hf, ← hparams]
    simp only [hread, Option.isSome_some, if_true, identsIn, Except.toOption, Option.map_some,
      Option.getD_some, hidents]

theorem methodShape_of_bodyOf (hhead : HeadOf (p.method m) d) (hbody : BodyOf p m d) :
    p.methodShape m = d.shape := by
  have hparams := congrArg (List.map Prod.snd) hhead.params
  simp only [List.map_map, Function.comp_def] at hparams
  rw [methodShape, Method.shape, hhead.name, hhead.static, hbody.usable,
    mention_of_bodyOf hhead hbody]
  exact congrArg (MethodShape.mk _ _ · _ _) hparams

theorem typeShape_of_describes {t : TypeRef} {d : TypeDecl} (hd : Describes p t d)
    (hbodies : List.Forall₂ (BodyOf p) (p.type t).methods d.methods) : p.typeShape t = d.shape := by
  have hkind : (kindOf? d.kind == some .interfaceType) = (p.type t).isInterface := by
    rw [hd.kind]
    rfl
  have hsupers : typeNames p (p.directSupertypes t) =
      if (p.type t).isInterface then d.extending else d.extending ++ d.implementing := by
    have hsplit : typeNames p (p.directSupertypes t) =
        typeNames p (p.type t).super.toList ++ typeNames p (p.type t).interfaces := List.map_append
    rw [hsplit, hd.superName, hd.interfaceNames]
    split <;> rfl
  have hmethods : (p.type t).methods.map p.methodShape = d.methods.map Method.shape := by
    rw [← List.forall₂_eq_eq_eq, List.forall₂_map_left_iff, List.forall₂_map_right_iff]
    exact List.Forall₂.mp (fun _ _ => methodShape_of_bodyOf) hd.methods hbodies
  rw [typeShape, TypeDecl.shape, hkind, hsupers, hd.name, hmethods]

end

/-- The shapes of a built program can be told from its description. -/
theorem build_shapes {file : String} {x : Description} {p : Program} (hok : x.build file = .ok p) :
    p.declared.map p.typeShape = x.types.map TypeDecl.shape := by
  rw [← List.forall₂_eq_eq_eq, List.forall₂_map_left_iff, List.forall₂_map_right_iff]
  exact (build_bodyOf hok).imp fun _ _ h => typeShape_of_describes h.1 h.2

/-- The descriptions have types of the same shapes, in any order. -/
def Reorders (x y : Description) : Prop :=
  (x.types.map TypeDecl.shape).Perm (y.types.map TypeDecl.shape)

/-- The same types in another order have the same shapes. -/
theorem reorders_of_perm {x y : Description} (h : x.types.Perm y.types) : x.Reorders y := h.map _

end Description

end DefaultLowering
