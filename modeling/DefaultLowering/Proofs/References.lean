import DefaultLowering.Proofs.Admission
import DefaultLowering.Proofs.SingleTwin

/-!
# What described bodies refer to

A typed body calls the methods that its description names, and a fragment refers to the members that its
text names.  What is named, as keys and identifiers, can be told from the description of the method
alone, without the program around it.

- `Expr.calls`, `Stmt.calls`, `Body.calls`: the call targets of a described body, as they are written;
- `callKey?`: the key that a call target names;
- `Function.idents_unbound`: the names in a fragment do not depend on how they are resolved;
- `BodyOf`, `build_bodyOf`: what the bodies of a built program refer to.
-/

namespace DefaultLowering.Fragment

/-! ## Section 1: The names in a fragment -/

theorem Part.idents_unbound (a : Part) : a.unbound.idents = a.idents := by
  induction a using Part.induct with
  | _ =>
    simp_all [Part.unbound, Part.idents, Expr.unbound, argsUnbound, Stmt.unbound, stmtsUnbound,
      declsUnbound, Decl.unbound, Function.unbound, Function.declaring, Expr.idents, identsOfArgs,
      Stmt.idents, identsOfStmts, identsOfDecls, Function.idents]

/-- The names in a fragment are the same however they are resolved. -/
theorem Function.idents_unbound (f : Function) : f.unbound.idents = f.idents :=
  (Part.function f).idents_unbound

end DefaultLowering.Fragment

namespace DefaultLowering.Description

open Program

variable {p : Program} {y : Program.Expr} {locals : List Local} {s : Site}

/-! ## Section 2: The calls of a described body -/

mutual

/-- The call targets in an expression, in the order in which they are resolved. -/
def Expr.calls : Expr → List String
  | .record _ none _ call receiver args => call :: (receiver.calls ++ callsOf args)
  | _ => []

def callsOf : List Expr → List String
  | [] => []
  | x :: xs => x.calls ++ callsOf xs

end

/-- The call targets in a statement. -/
def Stmt.calls : Stmt → List String
  | .ret _ x => x.calls
  | .expr _ x => x.calls
  | .local _ _ _ _ init => init.calls
  | _ => []

/-- The call targets in a body. -/
def Body.calls : Body → List String
  | .stmts _ ss => ss.flatMap Stmt.calls
  | _ => []

/-- There is at least one statement, so that an instance method of an interface is a default method. -/
def Body.isUsable : Body → Bool
  | .stmts _ ss => !ss.isEmpty
  | _ => false

/-- The key that a call target names. -/
def callKey? (call : String) : Option MethodKey :=
  (splitTarget (call.toList.filter (· != ' '))).toOption.map fun e => ⟨e.1, e.2⟩

/-- The call target names the method. -/
@[mk_iff]
structure Names (p : Program) (call : String) (m : MethodRef) : Prop where
  key : callKey? call = some (p.key m)
  lt : m.index < p.methods.length

/-- Calls are resolved by the keys that they name. -/
theorem names_of_resolveTarget (hp : p.Wired)
    (hnames : ∀ name t, p.typeNamed name = some t → t ∈ p.declared ∧ (p.type t).name = name)
    {call : String} {m : MethodRef} (h : resolveTarget p call = .ok m) : Names p call m := by
  obtain ⟨type, signature, t, hsplit, ht, hm⟩ := resolveTarget_eq_ok.mp h
  obtain ⟨hdeclared, hname⟩ := hnames type t ht
  have hsignature := List.find?_some hm
  rw [beq_iff_eq] at hsignature
  obtain ⟨hlt, henclosing⟩ := hp.member t hdeclared m (List.mem_of_find?_eq_some hm)
  refine ⟨?_, hlt⟩
  rw [callKey?, hsplit]
  simp only [Except.toOption, Option.map_some, key, enclosingName, henclosing, hname, hsignature]

/-- A name, `this` or a new object calls nothing. -/
theorem targets_of_buildName {line : Nat} {text : String}
    (h : buildName s locals line text = .ok y) : y.targets = [] := by
  simp only [buildName] at h
  split at h
  · split at h
    · cases h
      rfl
    · cases h
  · split at h
    · split at h
      · cases h
      · split at h
        · cases h
        · cases h
          rfl
    · split at h
      · cases h
        rfl
      · split at h
        · cases h
          rfl
        · cases h

theorem targets_of_buildLiteral {line : Nat} {text type : String}
    (h : buildLiteral s line text type = .ok y) : y.targets = [] := by
  unfold buildLiteral at h
  split at h
  · cases h
    rfl
  · split at h
    · cases h
      rfl
    · cases h

theorem buildExprs_calls {xs : List Expr} {ys : List Program.Expr}
    (ih : ∀ x ∈ xs, ∀ y, buildExpr s locals x = .ok y →
      List.Forall₂ (Names s.program) x.calls y.targets) (h : buildExprs s locals xs = .ok ys) :
    List.Forall₂ (Names s.program) (callsOf xs) (targetsOf ys) := by
  induction xs generalizing ys with
  | nil =>
    cases h
    exact .nil
  | cons x xs ihxs =>
    rw [List.forall_mem_cons] at ih
    rw [buildExprs] at h
    obtain ⟨y, hy, h⟩ := bind_eq_ok.mp h
    obtain ⟨ys', hys, h⟩ := bind_eq_ok.mp h
    cases h
    exact List.rel_append (ih.1 y hy) (ihxs ih.2 hys)

section

variable {s : Site}
  (hs : ∀ call m, resolveTarget s.program call = .ok m → Names s.program call m)

include hs

/-- What is built calls what is named, in the same order. -/
theorem buildExpr_calls {x : Expr} (h : buildExpr s locals x = .ok y) :
    List.Forall₂ (Names s.program) x.calls y.targets := by
  induction x using Expr.induction generalizing y with
  | absent | constant =>
    cases h
    exact .nil
  | name =>
    rw [buildExpr] at h
    rw [targets_of_buildName h]
    exact .nil
  | record line literal type call receiver args ihReceiver ihArgs =>
    cases literal with
    | some =>
      rw [buildExpr] at h
      split at h
      · cases h
      · rw [targets_of_buildLiteral h]
        exact .nil
    | none =>
      obtain ⟨target, r, ys, rfl, htarget, hreceiver, -, hys⟩ := buildCall_ok h
      have hargs := buildExprs_calls (fun x hx y => ihArgs x hx) hys
      refine .cons (hs call target htarget) (List.rel_append ?_ hargs)
      rcases hreceiver with ⟨habsent, himplicit⟩ | ⟨-, -, hbuilt⟩
      · -- a receiver that is not written calls nothing
        cases receiver with
        | absent =>
          rcases implicitReceiver_eq himplicit with ⟨-, rfl⟩ | ⟨-, -, rfl⟩ <;> exact .nil
        | _ => cases habsent
      · exact ihReceiver hbuilt
  | _ => cases h

theorem buildStmt_calls {locals' : List Local} {x : Stmt} {y : Program.Stmt}
    (h : buildStmt s locals x = .ok (y, locals')) :
    List.Forall₂ (Names s.program) x.calls y.targets := by
  cases x with
  | ret =>
    obtain ⟨z, hz, rfl, -⟩ := buildRet_ok h
    exact buildExpr_calls hs hz
  | expr =>
    rw [buildStmt] at h
    obtain ⟨z, hz, h⟩ := bind_eq_ok.mp h
    cases h
    exact buildExpr_calls hs hz
  | «local» line declLine name type init =>
    rw [buildStmt] at h
    obtain ⟨-, h⟩ := guard_ok h
    obtain ⟨-, h⟩ := guard_ok h
    obtain ⟨z, hz, h⟩ := bind_eq_ok.mp h
    cases h
    exact buildExpr_calls hs hz
  | _ => cases h

theorem buildStmts_calls {xs : List Stmt} {ys : List Program.Stmt}
    (h : buildStmts s locals xs = .ok ys) :
    ys.isEmpty = xs.isEmpty ∧
      List.Forall₂ (Names s.program) (xs.flatMap Stmt.calls) (targetsOfStmts ys) := by
  induction xs generalizing locals ys with
  | nil =>
    cases h
    exact ⟨rfl, .nil⟩
  | cons x xs ih =>
    rw [buildStmts] at h
    obtain ⟨⟨y, locals'⟩, hy, h⟩ := bind_eq_ok.mp h
    obtain ⟨ys', hys, h⟩ := bind_eq_ok.mp h
    cases h
    exact ⟨rfl, List.rel_append (buildStmt_calls hs hy) (ih hys).2⟩

theorem buildBody_calls {d : Body} {b : Option Program.Body} (h : buildBody s d = .ok b) :
    usable b = d.isUsable ∧
      List.Forall₂ (Names s.program) d.calls ((b.map Program.Body.targets).getD []) := by
  cases d with
  | absent =>
    cases h
    exact ⟨rfl, .nil⟩
  | notAList => cases h
  | stmts =>
    rw [buildBody] at h
    obtain ⟨ys, hys, h⟩ := bind_eq_ok.mp h
    cases h
    obtain ⟨hempty, hcalls⟩ := buildStmts_calls hs hys
    exact ⟨congrArg (!·) hempty, hcalls⟩

end

/-! ## Section 3: The bodies of a built program -/

/-- What the body of the method refers to is what its description names. -/
structure BodyOf (p : Program) (m : MethodRef) (d : Method) : Prop where
  usable : Program.usable (p.method m).body = (d.native.isSome || d.body.isUsable)
  typed : d.native = none → List.Forall₂ (Names p) d.body.calls
    (((p.method m).body.map Program.Body.targets).getD [])
  fragment : ∀ source, d.native = some source → ∃ pos f refs,
    (p.method m).body = some (.native pos (some f) refs) ∧
      Fragment.readFragment source ((p.method m).params.map (·.name)) = .ok f.unbound

section

variable {file : String} {index : MemberIndex} {p q : Program} {m : MethodRef}
  {d : Method}

theorem Rebodied.key (h : Rebodied p q) (m : MethodRef) : q.key m = p.key m := by
  simp only [Program.key, enclosingName, h.type]
  rw [h.sameHead m]
  rfl

theorem Rebodied.names (h : Rebodied p q) : Names q = Names p := by
  funext call m
  rw [names_iff, names_iff, h.key, h.length]

theorem BodyOf.kept (h : BodyOf p m d) (hpq : Rebodied p q) (hsame : q.method m = p.method m) :
    BodyOf q m d := by
  refine ⟨?_, ?_, ?_⟩
  · rw [hsame]
    exact h.usable
  · rw [hsame, hpq.names]
    exact h.typed
  · rw [hsame]
    exact h.fragment

theorem buildFragment_bodyOf {source : String} (hd : d.native = some source)
    (hm : m.index < p.methods.length) (hok : buildFragment p index m source = .ok q) :
    BodyOf q m d := by
  simp only [buildFragment] at hok
  split at hok
  · cases hok
  · rename_i f chain hparse
    split at hok
    · cases hok
    · rename_i refs hrefs
      cases hok
      have hself := method_setBody_self (p := { p with globals := chain.root.names })
        (some (.native (p.method m).pos (some f) refs)) hm
      obtain ⟨g, hg, -, rfl⟩ := Fragment.readFragment_of_parse hparse
      refine ⟨?_, ?_, ?_⟩
      · rw [hself, hd]
        rfl
      · rw [hd]
        intro hnone
        cases hnone
      · intro source' hsource
        rw [hd, Option.some.injEq] at hsource
        subst hsource
        rw [hself]
        exact ⟨_, f, refs, rfl, hg⟩

/-- The body that a method gets is what its description says. -/
theorem buildMethodBody_bodyOf (hs : ∀ call m, resolveTarget p call = .ok m → Names p call m)
    (hm : m.index < p.methods.length) (hok : buildMethodBody file index m d p = .ok q) :
    BodyOf q m d := by
  unfold buildMethodBody at hok
  cases hd : d.native with
  | some =>
    rw [hd] at hok
    exact buildFragment_bodyOf hd hm hok
  | none =>
    rw [hd] at hok
    obtain ⟨b, hb, hok⟩ := bind_eq_ok.mp hok
    cases hok
    have hself := method_setBody_self (p := p) b hm
    obtain ⟨husable, hcalls⟩ := buildBody_calls (s := ⟨p, file, m⟩) hs hb
    refine ⟨?_, fun _ => ?_, ?_⟩
    · rw [hself, hd]
      exact husable
    · rw [hself, (Rebodied.setBody p p.globals m b).names]
      exact hcalls
    · rw [hd]
      intro source hsource
      cases hsource

end

/-- After the round of bodies every method in it has the body that its description says, and no other
    method has changed. -/
theorem buildBodies_bodyOf {file : String} {index : MemberIndex} {p₀ q : Program}
    {ds : List (MethodRef × Method)} (hp₀ : p₀.Wired)
    (hnames : ∀ name t, p₀.typeNamed name = some t → t ∈ p₀.declared ∧ (p₀.type t).name = name)
    (hds : ∀ e ∈ ds, e.1.index < p₀.methods.length ∧ (p₀.method e.1).native = e.2.native.isSome)
    (hnodup : (ds.map Prod.fst).Nodup) (hp : Rebodied p₀ p)
    (hok : buildBodies file index ds p = .ok q) :
    Rebodied p q ∧ (∀ k, k ∉ ds.map Prod.fst → q.method k = p.method k) ∧
      ∀ e ∈ ds, BodyOf q e.1 e.2 := by
  induction ds generalizing p with
  | nil =>
    cases hok
    exact ⟨.refl _, fun _ _ => rfl, List.forall_mem_nil _⟩
  | cons e ds ih =>
    obtain ⟨m, d⟩ := e
    rw [List.forall_mem_cons] at hds
    obtain ⟨⟨hm, hnative⟩, hds⟩ := hds
    rw [List.map_cons, List.nodup_cons] at hnodup
    obtain ⟨p₁, hd, hok⟩ := bind_eq_ok.mp hok
    rw [← hp.length] at hm
    rw [← hp.native] at hnative
    -- bodies that are there already do not matter for what a call names
    have hresolves : ∀ call m, resolveTarget p call = .ok m → Names p call m := by
      intro call k hk
      refine names_of_resolveTarget (hp.wired hp₀) (fun name t ht => ?_) hk
      rw [typeNamed, hp.byName] at ht
      rw [hp.declared, hp.type]
      exact hnames name t ht
    obtain ⟨hp₁, -, hothers⟩ := buildMethodBody_hasBody
      (hp.resolves hp₀ fun name t ht => (hnames name t ht).1) hm hnative hd
    obtain ⟨hrest, hothers', hall⟩ := ih hds hnodup.2 (hp.trans hp₁) hok
    refine ⟨hp₁.trans hrest, ?_, List.forall_mem_cons.mpr ⟨?_, hall⟩⟩
    · intro k hk
      rw [List.map_cons, List.mem_cons, not_or] at hk
      rw [hothers' k hk.2, hothers k hk.1]
    · -- the rest of the round is about other methods
      exact (buildMethodBody_bodyOf hresolves hm hd).kept hrest (hothers' m hnodup.1)

/-- Two lists of lists that match as wholes match list by list. -/
theorem forall₂_of_flatMap {α β γ δ : Type} {R : γ → δ → Prop} {f : α → List γ} {g : β → List δ}
    {xs : List α} {ys : List β}
    (hlength : List.Forall₂ (fun x y => (f x).length = (g y).length) xs ys)
    (h : List.Forall₂ R (xs.flatMap f) (ys.flatMap g)) :
    List.Forall₂ (fun x y => List.Forall₂ R (f x) (g y)) xs ys := by
  induction hlength with
  | nil => exact .nil
  | @cons x y xs ys hxy _ ih =>
    rw [List.flatMap_cons, List.flatMap_cons] at h
    have hfirst := List.forall₂_take (f x).length h
    have hrest := List.forall₂_drop (f x).length h
    rw [List.take_left', List.take_left' hxy.symm] at hfirst
    rw [List.drop_left', List.drop_left' hxy.symm] at hrest
    · exact .cons hfirst (ih hrest)
    · rfl
    · rfl

/-- A built program has the types that are described, with the bodies that are described. -/
theorem build_bodyOf {file : String} {x : Description} (hok : x.build file = .ok p) :
    List.Forall₂ (fun t d => Describes p t d ∧ List.Forall₂ (BodyOf p) (p.type t).methods d.methods)
      p.declared x.types := by
  have hdescribes := build_describes hok
  have hnodup := (Loaded.fresh ⟨file, x, hok⟩).declaredMethods_nodup
  obtain ⟨p₀, hlinked, -, h₀, hp, -⟩ := build_hasBody hok
  obtain ⟨-, hlisted, -⟩ := linked_describes hlinked
  rw [build_eq, hlinked] at hok
  obtain ⟨p₁, h₁, hok⟩ := bind_eq_ok.mp hok
  obtain ⟨done, -, hok⟩ := bind_eq_ok.mp hok
  cases h₁
  have hheads : Heads p₀ p₀.declaredMethods (x.types.flatMap (·.methods)) :=
    List.rel_flatMap hlisted.outlines fun _ _ h => h.methods
  have hfst : (p₀.declaredMethods.zip (x.types.flatMap (·.methods))).map Prod.fst =
      p₀.declaredMethods := List.map_fst_zip (Nat.le_of_eq hheads.length_eq)
  rw [hp.declaredMethods] at hnodup
  obtain ⟨-, -, hall⟩ := buildBodies_bodyOf h₀.wired (fun name t ht => hlisted.typeNamed ht)
    (fun e he => ⟨h₀.wired.lt_of_mem_declaredMethods (List.of_mem_zip he).1,
      (List.forall₂_zip hheads he).native⟩) (by rw [hfst]; exact hnodup) (.refl p₀) hok
  have hbodies : List.Forall₂ (BodyOf p) p.declaredMethods (x.types.flatMap (·.methods)) := by
    rw [hp.declaredMethods]
    exact List.forall₂_iff_zip.mpr ⟨hheads.length_eq, fun he => hall _ he⟩
  -- bodies are built in one list for all types, which is cut into the lists of the types again
  have htypes := forall₂_of_flatMap (hdescribes.imp fun _ _ h => h.methods.length_eq) hbodies
  exact List.Forall₂.mp (fun _ _ => And.intro) hdescribes htypes

end DefaultLowering.Description
