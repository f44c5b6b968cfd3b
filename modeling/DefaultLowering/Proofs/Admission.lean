import DefaultLowering.Proofs.Loading

/-!
# What loading admits

Loading builds a program or finds a problem.  What it builds is well formed, whatever the description
says, and has the types and methods that are described.

- `WellFormed`: what a pass over a loaded program may rely on;
- `buildBodies_error`: what is wrong with a body is not reported as a cycle of superclasses;
- `load_wellFormed`: a loaded program is well formed, and a description is refused for a cycle of
  superclasses if and only if it has one.
-/

namespace DefaultLowering.Program

open Description

/-! ## Section 1: Well-formed programs -/

/-- What a pass may rely on. -/
structure WellFormed (p : Program) : Prop extends Hierarchy p where
  named : ∀ t ∈ p.declared, (p.type t).name ≠ ""
  names : (p.declared.map fun t => (p.type t).name).Nodup
  signatures : ∀ t ∈ p.declared, ((p.type t).methods.map fun m => (p.method m).signature).Nodup
  /-- Every chain of superclasses ends. -/
  chains : WellFounded fun u t => p.Superclass t u
  fits : ∀ m, p.MethodFits m
  stands : ∀ m b, (p.method m).body = some b → ∀ n ∈ b.nodes fun _ => true, p.NodeStands m n
  linkage : ∀ m pos f refs, (p.method m).body = some (.native pos (some f) refs) →
    Tabulates p.denoted (p.method m).pos f refs

end DefaultLowering.Program

namespace DefaultLowering.Description

open Program

variable {α : Type} {line : Nat} {file : String} {p : Program} {e : Problem} {x : Description}

/-! ## Section 2: Problems with bodies -/

theorem bind_eq_error {ε β : Type} {x : Except ε α} {f : α → Except ε β} {e : ε} :
    (x >>= f) = .error e ↔ x = .error e ∨ ∃ a, x = .ok a ∧ f a = .error e := by
  cases x with
  | error => simp [bind, Except.bind]
  | ok => simp [bind, Except.bind]

/-- The problem is one with the body of the method. -/
def InBody (s : Site) (e : Problem) : Prop := ∃ line cause, e = s.problem line cause

section

variable {s : Site} {locals : List Local} {e : Problem}

/-- A check reports a problem with the body, or what comes behind it does. -/
theorem InBody.guard {β : Type} {c : Prop} [Decidable c] {cause : BodyCause}
    {k : α → Except Problem β} {rest : Except Problem β}
    (h : (if c then throw (s.problem line cause) >>= k else rest) = .error e)
    (hrest : rest = .error e → InBody s e) : InBody s e := by
  by_cases hc : c
  · rw [if_pos hc] at h
    cases h
    exact ⟨line, cause, rfl⟩
  · rw [if_neg hc] at h
    exact hrest h

theorem buildName_error {text : String} (h : buildName s locals line text = .error e) :
    InBody s e := by
  simp only [buildName] at h
  split at h
  · split at h
    · cases h
    · cases h
      exact ⟨_, _, rfl⟩
  · split at h
    · split at h
      · cases h
        exact ⟨_, _, rfl⟩
      · split at h
        · cases h
          exact ⟨_, _, rfl⟩
        · cases h
    · split at h
      · cases h
      · split at h
        · cases h
        · cases h
          exact ⟨_, _, rfl⟩

theorem buildLiteral_error {text type : String} (h : buildLiteral s line text type = .error e) :
    InBody s e := by
  unfold buildLiteral at h
  split at h
  · cases h
  · split at h
    · cases h
    · cases h
      exact ⟨_, _, rfl⟩

theorem implicitReceiver_error {target : MethodRef}
    (h : implicitReceiver s line target = .error e) : InBody s e := by
  unfold implicitReceiver at h
  split at h
  · cases h
  · split at h
    · cases h
      exact ⟨_, _, rfl⟩
    · cases h

theorem buildExprs_error {xs : List Expr}
    (ih : ∀ x ∈ xs, ∀ e, buildExpr s locals x = .error e → InBody s e)
    (h : buildExprs s locals xs = .error e) : InBody s e := by
  induction xs with
  | nil => cases h
  | cons x xs ihxs =>
    rw [List.forall_mem_cons] at ih
    rw [buildExprs] at h
    rcases bind_eq_error.mp h with h | ⟨y, -, h⟩
    · exact ih.1 e h
    · rcases bind_eq_error.mp h with h | ⟨ys, -, h⟩
      · exact ihxs ih.2 h
      · cases h

theorem buildExpr_error {x : Expr} (h : buildExpr s locals x = .error e) : InBody s e := by
  induction x using Expr.induction generalizing e with
  | absent | constant => cases h
  | missing | notAnExpr | unreadable =>
    cases h
    exact ⟨_, _, rfl⟩
  | name =>
    rw [buildExpr] at h
    exact buildName_error h
  | record line literal type call receiver args ihReceiver ihArgs =>
    cases literal with
    | some =>
      rw [buildExpr] at h
      split at h
      · cases h
        exact ⟨_, _, rfl⟩
      · exact buildLiteral_error h
    | none =>
      rw [buildExpr] at h
      simp only at h
      split at h
      · cases h
        exact ⟨_, _, rfl⟩
      · cases htarget : resolveTarget s.program call with
        | error =>
          rw [htarget] at h
          cases h
          exact ⟨_, _, rfl⟩
        | ok target =>
          rw [htarget] at h
          simp only at h
          -- the arguments are built behind the receiver, whatever it is
          have hbehind : ∀ r, (buildExprs s locals args >>= fun ys =>
              pure (Program.Expr.call (s.pos line) r target ys)) = .error e → InBody s e := by
            intro r h
            rcases bind_eq_error.mp h with h | ⟨ys, -, h⟩
            · exact buildExprs_error (fun x hx e => ihArgs x hx) h
            · cases h
          split at h
          · rcases bind_eq_error.mp h with h | ⟨r, -, h⟩
            · exact implicitReceiver_error h
            · exact .guard h (hbehind r)
          · split at h
            · cases h
              exact ⟨_, _, rfl⟩
            · rcases bind_eq_error.mp h with h | ⟨r, -, h⟩
              · exact ihReceiver h
              · exact .guard h (hbehind r)

theorem buildStmt_error {x : Stmt} (h : buildStmt s locals x = .error e) : InBody s e := by
  cases x with
  | ret line x =>
    by_cases hx : x = .absent
    · rw [hx, buildStmt] at h
      split at h
      · cases h
      · cases h
        exact ⟨_, _, rfl⟩
    · rw [buildStmt] at h
      · rcases bind_eq_error.mp h with h | ⟨y, -, h⟩
        · exact buildExpr_error h
        · cases h
      · exact hx
  | expr =>
    rw [buildStmt] at h
    rcases bind_eq_error.mp h with h | ⟨y, -, h⟩
    · exact buildExpr_error h
    · cases h
  | «local» line declLine name type init =>
    rw [buildStmt] at h
    refine .guard h fun h => .guard h fun h => ?_
    rcases bind_eq_error.mp h with h | ⟨y, -, h⟩
    · exact buildExpr_error h
    · cases h
  | _ =>
    cases h
    exact ⟨_, _, rfl⟩

theorem buildStmts_error {xs : List Stmt} (h : buildStmts s locals xs = .error e) :
    InBody s e := by
  induction xs generalizing locals with
  | nil => cases h
  | cons x xs ih =>
    rw [buildStmts] at h
    rcases bind_eq_error.mp h with h | ⟨⟨y, locals'⟩, -, h⟩
    · exact buildStmt_error h
    · rcases bind_eq_error.mp h with h | ⟨ys, -, h⟩
      · exact ih h
      · cases h

theorem buildBody_error {d : Body} (h : buildBody s d = .error e) : InBody s e := by
  cases d with
  | absent => cases h
  | notAList =>
    cases h
    exact ⟨_, _, rfl⟩
  | stmts =>
    rw [buildBody] at h
    rcases bind_eq_error.mp h with h | ⟨ys, -, h⟩
    · exact buildStmts_error h
    · cases h

end

/-- No problem of the round of bodies is a cycle of superclasses. -/
theorem buildMethodBody_error {index : MemberIndex} {m : MethodRef} {d : Method}
    (h : buildMethodBody file index m d p = .error e) (name : String) :
    e.cause ≠ .cyclicInheritance name := by
  unfold buildMethodBody at h
  split at h
  · simp only [buildFragment] at h
    split at h
    · cases h
      exact Cause.noConfusion
    · split at h
      · cases h
        exact Cause.noConfusion
      · cases h
  · rcases bind_eq_error.mp h with h | ⟨b, -, h⟩
    · obtain ⟨line, cause, rfl⟩ := buildBody_error h
      exact Cause.noConfusion
    · cases h

theorem buildBodies_error {index : MemberIndex} {ds : List (MethodRef × Method)}
    (h : buildBodies file index ds p = .error e) (name : String) :
    e.cause ≠ .cyclicInheritance name := by
  induction ds generalizing p with
  | nil => cases h
  | cons md ds ih =>
    obtain ⟨m, d⟩ := md
    rw [buildBodies] at h
    rcases bind_eq_error.mp h with h | ⟨p₁, -, h⟩
    · exact buildMethodBody_error h name
    · exact ih h

/-! ## Section 3: Refused for a cycle -/

theorem build_cyclic_iff (hlinked : x.linked file = .ok p) :
    (∃ line name, x.build file = .error ⟨line, .cyclicInheritance name⟩) ↔
      ∃ a, Relation.TransGen x.Extends a a := by
  obtain ⟨hdrafted, -, hdescribes⟩ := linked_describes hlinked
  have hcheck := checkCycles_ok_iff (hierarchy_of_describes hdescribes)
  have hbuild : x.build file = checkCycles p >>= fun _ => buildBodies file
      (NameCache.index {} p).1 (p.declaredMethods.zip (x.types.flatMap (·.methods))) p := by
    rw [build_eq, hlinked]
    rfl
  rw [← exists_cyclic_iff hdrafted hdescribes, hbuild]
  constructor
  · rintro ⟨line, name, h⟩
    by_contra hnone
    rw [not_exists] at hnone
    rcases bind_eq_error.mp h with h | ⟨done, -, h⟩
    · rw [hcheck.mpr hnone] at h
      cases h
    · exact buildBodies_error h name rfl
  · rintro ⟨t, ht⟩
    cases hcycles : checkCycles p with
    | ok => exact absurd ht (hcheck.mp hcycles t)
    | error =>
      obtain ⟨line, name, rfl⟩ := checkCycles_error hcycles
      exact ⟨line, name, rfl⟩

/-! ## Section 4: Loaded programs are well formed -/

/-- The round of bodies leaves the types as they are described. -/
theorem Describes.rebodied {q : Program} (h : Rebodied p q) {t : TypeRef} {d : TypeDecl}
    (hd : Describes p t d) : Describes q t d := by
  have hheads : ∀ m e, HeadOf (p.method m) e → HeadOf (q.method m) e := by
    intro m e he
    obtain ⟨b, hb⟩ := h.method m
    rw [hb]
    exact ⟨he.name, he.static, he.native, he.params⟩
  have hnames : ∀ ts, typeNames q ts = typeNames p ts :=
    fun ts => List.map_congr_left fun u _ => by rw [h.type]
  refine ⟨hd.toOutlines.kept ⟨_, _, _, h.type t⟩ fun m _ => hheads m, ⟨?_, ?_, ?_, ?_⟩⟩
  · rw [hnames, h.type]
    exact hd.superName
  · rw [hnames, h.type]
    exact hd.interfaceNames
  · rw [h.type, h.declared]
    simp only [h.type]
    exact hd.super
  · rw [h.type, h.declared]
    simp only [h.type]
    exact hd.interfaces

/-- A built program has the types that are described. -/
theorem build_describes (hok : x.build file = .ok p) :
    List.Forall₂ (Describes p) p.declared x.types := by
  obtain ⟨p₀, hlinked, -, -, hp, -⟩ := build_hasBody hok
  obtain ⟨-, -, hdescribes⟩ := linked_describes hlinked
  rw [hp.declared]
  exact hdescribes.imp fun _ _ => Describes.rebodied hp

theorem build_wellFormed (hok : x.build file = .ok p) : p.WellFormed := by
  have hdescribes := build_describes hok
  have hhierarchy := hierarchy_of_describes hdescribes
  have hfresh : p.Fresh := Loaded.fresh ⟨file, x, hok⟩
  obtain ⟨p₀, hlinked, hcycles, -, hp, hbodies⟩ := build_hasBody hok
  refine ⟨hhierarchy, ?_, ?_, ?_, ?_, hfresh.fits, ?_, ?_⟩
  · intro t ht
    obtain ⟨d, -, hd⟩ := exists_of_forall₂_left hdescribes ht
    rw [hd.name]
    exact hd.named
  · exact hfresh.types_nodup.map_on fun t ht u hu => hfresh.name_inj t ht u hu
  · intro t ht
    exact (hfresh.methods_nodup t ht).map_on fun m hm k hk => hfresh.distinct t ht m hm k hk
  · -- the check was made before the bodies, which it does not depend on
    have hsame : p.Superclass = p₀.Superclass := by
      funext t u
      rw [Superclass, Superclass, hp.declared, hp.type]
    obtain ⟨-, -, hdescribes₀⟩ := linked_describes hlinked
    apply hhierarchy.wellFounded_superclass
    rw [hsame]
    exact (checkCycles_ok_iff (hierarchy_of_describes hdescribes₀)).mp hcycles
  · intro m b hb
    exact (hbodies m (lt_of_body hb)).stands b hb
  · intro m pos f refs hbody
    exact (hbodies m (lt_of_body hbody)).tabulated pos f refs hbody

theorem load_eq_error_iff (h : requireVersion x.version = .ok ()) :
    x.load file = .error (.program e) ↔ x.build file = .error e := by
  unfold Description.load
  rw [h]
  cases hbuild : x.build file with
  | ok => simp
  | error => simp

/-- A loaded program is well formed, and has the types that are described.  Of the descriptions whose
    supertypes are found, those in which a class reaches itself through its superclasses are refused
    for it, and no others. -/
theorem load_wellFormed (file : String) (x : Description) :
    (∀ p, x.load file = .ok p →
      p.WellFormed ∧ List.Forall₂ (Describes p) p.declared x.types) ∧
    ∀ q, requireVersion x.version = .ok () → x.linked file = .ok q →
      ((∃ line name, x.load file = .error (.program ⟨line, .cyclicInheritance name⟩)) ↔
        ∃ a, Relation.TransGen x.Extends a a) := by
  refine ⟨?_, ?_⟩
  · intro p hp
    have hbuild := load_eq_ok hp
    exact ⟨build_wellFormed hbuild, build_describes hbuild⟩
  · intro q hversion hlinked
    simp only [load_eq_error_iff hversion]
    exact build_cyclic_iff hlinked

/-- A class that has a superclass and an interface, makes objects of itself, and refers to one method
    twice in a fragment. -/
def drawing : Description where
  version := "1.0"
  types := [
    { name := "Shape"
      kind := "interface"
      methods := [{ name := "scale", params := [{ name := "by", type := "int" }] }] },
    { name := "Figure", abstract := true, implementing := ["Shape"] },
    { name := "Circle"
      extending := ["Figure"]
      methods := [
        { name := "make"
          static := true
          returns := "Circle"
          body := .stmts 9 [
            .local 10 10 "made" "Circle" (.name 10 "new Circle"),
            .ret 11 (.name 11 "made")] },
        { name := "scale"
          params := [{ name := "by", type := "int" }]
          native := some "this.@Shape::scale(I)(by); this.@Shape::scale(I)(1);" },
        { name := "twice"
          body := .stmts 15 [
            .expr 16 (.record 16 none "" "Circle.scale(int)" .absent [.constant 16 "2" "int"])] }] }]

/-- Two classes that extend each other. -/
def circular : Description where
  version := "1.0"
  types := [{ name := "Egg", extending := ["Hen"] }, { name := "Hen", extending := ["Egg"] }]

theorem load_wellFormed_drawing : (∃ p, drawing.load "drawing" = .ok p ∧ p.WellFormed) ∧
    ∃ line name, circular.load "circular" = .error (.program ⟨line, .cyclicInheritance name⟩) := by
  refine ⟨?_, ?_⟩
  · have hok : (drawing.load "drawing").isOk = true := by decide +kernel
    obtain ⟨p, hp⟩ := exists_of_isOk hok
    exact ⟨p, hp, ((load_wellFormed "drawing" drawing).1 p hp).1⟩
  · have hversion : (requireVersion circular.version).isOk = true := by decide +kernel
    have hlinked : (circular.linked "circular").isOk = true := by decide +kernel
    obtain ⟨done, hdone⟩ := exists_of_isOk hversion
    obtain ⟨q, hq⟩ := exists_of_isOk hlinked
    refine ((load_wellFormed "circular" circular).2 q hdone hq).mpr ⟨"Egg", ?_⟩
    have hegg : circular.Extends "Egg" "Hen" := ⟨_, List.mem_cons_self, rfl, rfl, rfl⟩
    have hhen : circular.Extends "Hen" "Egg" :=
      ⟨_, List.mem_cons_of_mem _ List.mem_cons_self, rfl, rfl, rfl⟩
    exact .tail (.single hegg) hhen

end DefaultLowering.Description
