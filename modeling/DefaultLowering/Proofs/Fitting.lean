import DefaultLowering.Proofs.Twinning

/-!
# Bodies that fit their methods

A typed body fits the method it belongs to when every node makes sense there: calls pass as many
arguments as their targets have parameters and have a receiver unless the target is static, `this` is
used in instance methods only and has the type of the method, parameters are those of the method, and
locals are declared by a statement in front.  A fragment fits when it has the parameters of its method.

- `Expr.Fits`, `Stmt.Fits`, `StmtsFit`: what fits;
- `MethodFits`: a method with a body that fits;
- `NodeStands`: what is asked of single nodes beyond that, in the programs that lowering starts from.

Trees keep fitting when only bodies change or methods are added (`StmtsFit.kept`), when they move to a
twin (`StmtsFit.relocation`) and when their calls are turned over (`StmtsFit.turnover`).
-/

namespace DefaultLowering.Program

variable {p : Program} {locals : List Local} {m : MethodRef} {ss : List Stmt} {x : Expr} {s : Stmt}

/-! ## Section 1: What fits -/

/-- A call passes as many arguments as its target has parameters, and has a receiver unless the target
    is static. -/
def CallFits (p : Program) (receiver : Expr) (target : MethodRef) (args : List Expr) : Prop :=
  target.index < p.methods.length ∧ args.length = (p.method target).params.length ∧
    (receiver = .absent ↔ (p.method target).static = true)

mutual

/-- The expression fits the method `m` in a place where `locals` are declared. -/
def Expr.Fits (p : Program) (m : MethodRef) (locals : List Local) : Expr → Prop
  | .call _ receiver target args =>
    p.CallFits receiver target args ∧ receiver.Fits p m locals ∧ AllFit p m locals args
  | .implicitThis _ => (p.method m).static = false
  | .this _ t => (p.method m).static = false ∧ (p.method m).enclosing = some t
  | .param _ q => q.method = m ∧ q.index < (p.method m).params.length
  | .local _ v => v ∈ locals
  | .absent => True
  | .new _ _ => True
  | .literal _ _ _ => True

def AllFit (p : Program) (m : MethodRef) (locals : List Local) : List Expr → Prop
  | [] => True
  | x :: xs => x.Fits p m locals ∧ AllFit p m locals xs

end

/-- The locals that a statement declares for the statements behind it. -/
def Stmt.declares : Stmt → List Local
  | .local _ v _ => [v]
  | _ => []

mutual

/-- The statement fits the method `m` in a place where `locals` are declared.  No name is declared
    twice. -/
def Stmt.Fits (p : Program) (m : MethodRef) : List Local → Stmt → Prop
  | _, .absent => True
  | locals, .block _ ss => StmtsFit p m locals ss
  | locals, .ret _ x => x.Fits p m locals
  | locals, .expr _ x => x.Fits p m locals
  | locals, .local _ v init => (∀ u ∈ locals, u.name ≠ v.name) ∧ init.Fits p m locals

def StmtsFit (p : Program) (m : MethodRef) : List Local → List Stmt → Prop
  | _, [] => True
  | locals, s :: ss => s.Fits p m locals ∧ StmtsFit p m (locals ++ s.declares) ss

end

/-- The body of a method fits it, and the method is native if the body is. -/
structure MethodFits (p : Program) (m : MethodRef) : Prop where
  code : ∀ pos block, (p.method m).body = some (.code pos block) →
    ∃ b, block = some b ∧ StmtsFit p m [] b.stmts
  native : (p.method m).native = (p.method m).body.any Body.isNative
  fragment : ∀ pos func refs, (p.method m).body = some (.native pos func refs) →
    ∃ f, func = some f ∧ f.params = (p.method m).params.map (·.name)

/-- A node that makes an object names a class that has objects of its own, and a node that declares a
    local does not take the name of a parameter. -/
def NodeStands (p : Program) (m : MethodRef) : Node → Prop
  | .expr (.new _ t) =>
    t ∈ p.declared ∧ (p.type t).isInterface = false ∧ (p.type t).abstract = false
  | .stmt (.local _ v _) => ∀ x ∈ (p.method m).params, x.name ≠ v.name
  | _ => True

theorem allFit_iff {xs : List Expr} :
    AllFit p m locals xs ↔ ∀ x ∈ xs, x.Fits p m locals := by
  induction xs with
  | nil => simp [AllFit]
  | cons x xs ih => simp [AllFit, ih]

/-- Statements may be replaced one by one, if each declares what it declared. -/
theorem StmtsFit.map {p' : Program} {m' : MethodRef} {f : Stmt → Stmt}
    (hdeclares : ∀ s, (f s).declares = s.declares)
    (hf : ∀ s ∈ ss, ∀ locals, s.Fits p m locals → (f s).Fits p' m' locals)
    (h : StmtsFit p m locals ss) : StmtsFit p' m' locals (ss.map f) := by
  induction ss generalizing locals with
  | nil => trivial
  | cons s ss ih =>
    rw [List.forall_mem_cons] at hf
    refine ⟨hf.1 locals h.1, ?_⟩
    rw [hdeclares]
    exact ih hf.2 h.2

/-! ## Section 2: Programs with the same heads -/

/-- Every method of the first program is one of the second, up to its body. -/
structure KeepsHeads (p q : Program) : Prop where
  length_methods : p.methods.length ≤ q.methods.length
  method : ∀ m, m.index < p.methods.length → SameHead (p.method m) (q.method m)

theorem Extends.keepsHeads {q : Program} (h : p.Extends q) : p.KeepsHeads q :=
  ⟨h.length_methods, h.method⟩

section

variable {p q : Program} (hpq : p.KeepsHeads q) {m : MethodRef} (hm : m.index < p.methods.length)

include hpq

theorem CallFits.kept {receiver : Expr} {target : MethodRef} {args : List Expr}
    (h : p.CallFits receiver target args) : q.CallFits receiver target args := by
  obtain ⟨hlt, hlength, hreceiver⟩ := h
  unfold CallFits
  rw [hpq.method target hlt]
  exact ⟨Nat.lt_of_lt_of_le hlt hpq.length_methods, hlength, hreceiver⟩

include hm

theorem Expr.Fits.kept (h : x.Fits p m locals) :
    x.Fits q m locals := by
  have hstatic : (q.method m).static = (p.method m).static := by rw [hpq.method m hm]
  have hparams : (q.method m).params = (p.method m).params := by rw [hpq.method m hm]
  have henclosing : (q.method m).enclosing = (p.method m).enclosing := by rw [hpq.method m hm]
  induction x with
  | call pos receiver target args ihReceiver ihArgs =>
    simp only [Expr.Fits, allFit_iff] at h ⊢
    obtain ⟨hcall, hreceiver, hargs⟩ := h
    exact ⟨hcall.kept hpq, ihReceiver hreceiver, fun x hx => ihArgs x hx (hargs x hx)⟩
  | implicitThis =>
    rw [Expr.Fits, hstatic]
    exact h
  | self =>
    rw [Expr.Fits, hstatic, henclosing]
    exact h
  | param =>
    rw [Expr.Fits, hparams]
    exact h
  | _ => exact h

theorem Stmt.Fits.kept : ∀ {locals : List Local}, s.Fits p m locals →
    s.Fits q m locals := by
  induction s with
  | absent => exact fun h => h
  | block pos ss ih =>
    intro locals h
    have hmap : StmtsFit q m locals (ss.map id) :=
      StmtsFit.map (fun _ => rfl) (fun s hs _ => ih s hs) h
    rw [List.map_id] at hmap
    exact hmap
  | ret => exact Expr.Fits.kept hpq hm
  | expr => exact Expr.Fits.kept hpq hm
  | decl => exact fun h => ⟨h.1, h.2.kept hpq hm⟩

theorem StmtsFit.kept (h : StmtsFit p m locals ss) :
    StmtsFit q m locals ss :=
  Stmt.Fits.kept hpq hm (s := .block default ss) h

omit hm in
/-- A method that is the same in both programs fits in the second if it fits in the first. -/
theorem MethodFits.kept (h : p.MethodFits m) (hsame : q.method m = p.method m) :
    q.MethodFits m := by
  refine ⟨?_, ?_, ?_⟩
  · intro pos block hbody
    rw [hsame] at hbody
    obtain ⟨b, hb, hfits⟩ := h.code pos block hbody
    exact ⟨b, hb, hfits.kept hpq (lt_of_body hbody)⟩
  · rw [hsame]
    exact h.native
  · rw [hsame]
    exact h.fragment

end

/-! ## Section 3: Trees that move to a twin -/

theorem Relocation.expr_eq_absent (r : Relocation) : r.expr x = .absent ↔ x = .absent := by
  cases x <;> simp [Relocation.expr, Relocation.leaf]

section

variable {p : Program} {d t : MethodRef} (ht : p.IsTwin d t)

include ht

theorem Expr.Fits.relocation (h : x.Fits p d locals) :
    (Relocation.expr ⟨d, t⟩ x).Fits p t locals := by
  have hreceiver : 0 < (p.method t).params.length := by
    rw [ht.params]
    exact Nat.succ_pos _
  induction x with
  | call pos receiver target args ihReceiver ihArgs =>
    simp only [Expr.Fits, allFit_iff] at h
    obtain ⟨⟨hlt, hlength, hstatic⟩, hreceiver, hargs⟩ := h
    simp only [Relocation.expr, Expr.Fits, allFit_iff, Relocation.exprs_eq_map]
    refine ⟨⟨hlt, ?_, ?_⟩, ihReceiver hreceiver, ?_⟩
    · rw [List.length_map, hlength]
    · rw [Relocation.expr_eq_absent, hstatic]
    · intro y hy
      obtain ⟨x, hx, rfl⟩ := List.mem_map.mp hy
      exact ihArgs x hx (hargs x hx)
  | implicitThis => exact ⟨rfl, hreceiver⟩
  | self => exact ⟨rfl, hreceiver⟩
  | param pos r =>
    -- the parameters are one place further on
    obtain ⟨hmethod, hindex⟩ := h
    have hleaf : Relocation.expr ⟨d, t⟩ (.param pos r) = .param pos ⟨t, r.index + 1⟩ := by
      simp only [Relocation.expr, Relocation.leaf, hmethod, if_true]
    rw [hleaf]
    refine ⟨rfl, ?_⟩
    rw [ht.params]
    exact Nat.succ_lt_succ hindex
  | _ => exact h

theorem Stmt.Fits.relocation : ∀ {locals : List Local}, s.Fits p d locals →
    (Relocation.stmt ⟨d, t⟩ s).Fits p t locals := by
  induction s with
  | absent => exact fun h => h
  | block pos ss ih =>
    intro locals h
    rw [Relocation.stmt, Relocation.stmts_eq_map]
    refine StmtsFit.map ?_ (fun s hs _ => ih s hs) h
    intro s
    cases s <;> rfl
  | ret => exact Expr.Fits.relocation ht
  | expr => exact Expr.Fits.relocation ht
  | decl => exact fun h => ⟨h.1, h.2.relocation ht⟩

theorem StmtsFit.relocation (h : StmtsFit p d locals ss) :
    StmtsFit p t locals (Relocation.stmts ⟨d, t⟩ ss) :=
  Stmt.Fits.relocation ht (s := .block default ss) h

end

/-! ## Section 4: Trees that are turned over -/

theorem Turnover.expr_eq_absent {o : Turnover} {self : TypeRef} :
    o.expr self x = .absent ↔ x = .absent := by
  cases x with
  | call =>
    rw [Turnover.expr]
    split <;> simp
  | _ => simp [Turnover.expr]

section

variable {p : Program} (hp : p.Coherent) {m : MethodRef} (hm : m.index < p.methods.length)

include hp

/-- The call of the twin has one argument and one parameter more. -/
theorem CallFits.turnover {receiver passed : Expr} {d t : MethodRef} {args args' : List Expr}
    (h : p.CallFits receiver d args) (hd : p.isDefault d = true) (ht : p.staticOf? d = some t)
    (hargs : args'.length = args.length) : p.CallFits .absent t (passed :: args') := by
  have htwin := hp.twin d t hd ht
  refine ⟨htwin.lt, ?_, ?_⟩
  · rw [htwin.params, List.length_cons, List.length_cons, hargs, h.2.1]
  · rw [htwin.static]
    simp

include hm

theorem Expr.Fits.turnover (hserved : p.Served x.targets) (h : x.Fits p m locals) :
    (p.turnover.expr (p.home m) x).Fits p m locals := by
  induction x with
  | call pos receiver target args ihReceiver ihArgs =>
    simp only [Expr.Fits, allFit_iff] at h
    obtain ⟨hcall, hreceiver, hargs⟩ := h
    have hreceiver' : (p.turnover.expr (p.home m) receiver).Fits p m locals :=
      ihReceiver (fun d hd => hserved d (mem_targets_call.mpr (.inr (.inl hd)))) hreceiver
    have hargs' : ∀ y ∈ p.turnover.exprs (p.home m) args, y.Fits p m locals := by
      intro y hy
      rw [Turnover.exprs_eq_map] at hy
      obtain ⟨x, hx, rfl⟩ := List.mem_map.mp hy
      exact ihArgs x hx (fun d hd => hserved d (mem_targets_call.mpr (.inr (.inr ⟨x, hx, hd⟩))))
        (hargs x hx)
    have hlength : (p.turnover.exprs (p.home m) args).length = args.length := by
      rw [Turnover.exprs_eq_map, List.length_map]
    by_cases htarget : p.isDefault target = true
    · obtain ⟨t, ht⟩ := Option.isSome_iff_exists.mp
        (hserved target (mem_targets_call.mpr (.inl rfl)) htarget)
      have htwin : p.turnover.twin target = t := by simp [Program.turnover, ht]
      have hpassed : (passedReceiver pos (p.home m) receiver
          (p.turnover.expr (p.home m) receiver)).Fits p m locals := by
        unfold passedReceiver
        split
        · -- an implicit receiver is passed as `this` of the enclosing type
          exact ⟨hreceiver, (hp.home_declared hm).2.1⟩
        · exact hreceiver'
      have hcase : p.turnover.isDefault target = true := htarget
      simp only [Turnover.expr, hcase, if_true, Expr.Fits, allFit_iff, htwin]
      refine ⟨hcall.turnover hp htarget ht hlength, trivial, ?_⟩
      intro y hy
      rcases List.mem_cons.mp hy with rfl | hy
      · exact hpassed
      · exact hargs' y hy
    · have hcase : p.turnover.isDefault target = false := Bool.eq_false_iff.mpr htarget
      simp only [Turnover.expr, hcase, Bool.false_eq_true, if_false, Expr.Fits, allFit_iff]
      refine ⟨⟨hcall.1, ?_, ?_⟩, hreceiver', hargs'⟩
      · rw [hlength, hcall.2.1]
      · rw [Turnover.expr_eq_absent, hcall.2.2]
  | _ => exact h

theorem Stmt.Fits.turnover : ∀ {locals : List Local}, p.Served s.targets →
    s.Fits p m locals → (p.turnover.stmt (p.home m) s).Fits p m locals := by
  induction s with
  | absent => exact fun _ h => h
  | block pos ss ih =>
    intro locals hserved h
    rw [Turnover.stmt, Turnover.stmts_eq_map]
    refine StmtsFit.map ?_ (fun s hs _ => ih s hs ?_) h
    · intro s
      cases s <;> rfl
    · exact fun d hd => hserved d (mem_targetsOfStmts.mpr ⟨s, hs, hd⟩)
  | ret => exact Expr.Fits.turnover hp hm
  | expr => exact Expr.Fits.turnover hp hm
  | decl => exact fun hserved h => ⟨h.1, h.2.turnover hp hm hserved⟩

theorem StmtsFit.turnover (hserved : p.Served (targetsOfStmts ss)) (h : StmtsFit p m locals ss) :
    StmtsFit p m locals (p.turnover.stmts (p.home m) ss) :=
  Stmt.Fits.turnover hp hm (s := .block default ss) hserved h

end

/-! ## Section 5: Bodies that pass everything on -/

/-- A method that passes its receiver and its parameters on to a static method which takes them. -/
theorem stmtsFit_passingOn {target : MethodRef} {t : TypeRef} {pos pos' : Pos} {result : TypeName}
    {n : Nat} {block : Option Block} (hlt : target.index < p.methods.length)
    (hinstance : (p.method m).static = false) (henclosing : (p.method m).enclosing = some t)
    (hparams : (p.method m).params.length = n) (hstatic : (p.method target).static = true)
    (htarget : (p.method target).params.length = n + 1)
    (hb : passingOn pos result target (.this pos t :: paramRefs pos m n) = .code pos' block) :
    ∃ b, block = some b ∧ StmtsFit p m [] b.stmts := by
  have hargs : AllFit p m [] (.this pos t :: paramRefs pos m n) := by
    rw [allFit_iff]
    intro x hx
    rcases List.mem_cons.mp hx with rfl | hx
    · exact ⟨hinstance, henclosing⟩
    · obtain ⟨i, hi, rfl⟩ := List.mem_map.mp hx
      exact ⟨rfl, by rw [hparams]; exact List.mem_range.mp hi⟩
  have hcall : (Expr.call pos .absent target (.this pos t :: paramRefs pos m n)).Fits p m [] := by
    refine ⟨⟨hlt, ?_, ?_⟩, trivial, hargs⟩
    · rw [htarget]
      simp [paramRefs]
    · rw [hstatic]
      simp
  unfold passingOn at hb
  cases hb
  refine ⟨_, rfl, ?_⟩
  split
  · exact ⟨hcall, trivial⟩
  · exact ⟨hcall, trivial⟩

end DefaultLowering.Program
