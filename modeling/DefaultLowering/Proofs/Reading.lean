import DefaultLowering.Proofs.Declaring
import DefaultLowering.Proofs.Renaming

/-!
# Fragments as they are read

A tree that was read resolves no name, and the body of every function in it is a block (`Function.Raw`).
`Binds` says how names are resolved, one rule for each sort of part (`binds_bindFunction`).  What is known
about resolved trees comes from these rules, to begin with that exactly the unqualified script names have a
level (`Binds.bound`).
-/

namespace DefaultLowering.Fragment

/-! ## Section 1: Trees with unresolved and with resolved names -/

mutual

/-- No name is resolved, and function bodies are blocks. -/
def Expr.Raw : Expr → Prop
  | .absent => True
  | .name _ q level => level = none ∧ q.Raw
  | .call callee args => callee.Raw ∧ ArgsRaw args
  | .this => True
  | .literal _ => True
  | .binary _ x y => x.Raw ∧ y.Raw
  | .unary _ x => x.Raw
  | .func f => f.Raw

def ArgsRaw : List Expr → Prop
  | [] => True
  | x :: xs => x.Raw ∧ ArgsRaw xs

def Stmt.Raw : Stmt → Prop
  | .absent => True
  | .block ss => StmtsRaw ss
  | .expr x => x.Raw
  | .ret x => x.Raw
  | .var ds => DeclsRaw ds
  | .cond test yes no => test.Raw ∧ yes.Raw ∧ no.Raw

def StmtsRaw : List Stmt → Prop
  | [] => True
  | s :: ss => s.Raw ∧ StmtsRaw ss

def Decl.Raw : Decl → Prop
  | .mk _ init => init.Raw

def DeclsRaw : List Decl → Prop
  | [] => True
  | d :: ds => d.Raw ∧ DeclsRaw ds

def Function.Raw : Function → Prop
  | .mk _ _ _ body => body.Raw ∧ body.IsBody

end

mutual

/-- Exactly the unqualified script names are resolved. -/
def Expr.Bound : Expr → Prop
  | .absent => True
  | .name ident q level =>
    (level.isSome = true ↔ q = .absent ∧ isMemberIdent ident = false) ∧ q.Bound
  | .call callee args => callee.Bound ∧ ArgsBound args
  | .this => True
  | .literal _ => True
  | .binary _ x y => x.Bound ∧ y.Bound
  | .unary _ x => x.Bound
  | .func f => f.Bound

def ArgsBound : List Expr → Prop
  | [] => True
  | x :: xs => x.Bound ∧ ArgsBound xs

def Stmt.Bound : Stmt → Prop
  | .absent => True
  | .block ss => StmtsBound ss
  | .expr x => x.Bound
  | .ret x => x.Bound
  | .var ds => DeclsBound ds
  | .cond test yes no => test.Bound ∧ yes.Bound ∧ no.Bound

def StmtsBound : List Stmt → Prop
  | [] => True
  | s :: ss => s.Bound ∧ StmtsBound ss

def Decl.Bound : Decl → Prop
  | .mk _ init => init.Bound

def DeclsBound : List Decl → Prop
  | [] => True
  | d :: ds => d.Bound ∧ DeclsBound ds

def Function.Bound : Function → Prop
  | .mk _ _ _ body => body.Bound

end

/-! ## Section 2: Resolving names -/

/-- How the names of a part are resolved inside of the scopes `sc`, said without the state: what the part
    becomes, and what the root declares before and behind it. -/
inductive Binds : Scopes → Part → List String → Part → List String → Prop where
  | absent {sc n} : Binds sc (.expr .absent) n (.expr .absent) n
  | member {sc ident level n} : isMemberIdent ident = true →
      Binds sc (.expr (.name ident .absent level)) n (.expr (.name ident .absent level)) n
  /-- The root declares a name that no scope does. -/
  | alone {sc ident level n} : isMemberIdent ident = false →
      Binds sc (.expr (.name ident .absent level)) n
        (.expr (.name ident .absent (some (levelOf sc ident))))
        (if levelOf sc ident = sc.length then declare ident n else n)
  | qualified {sc ident q q' level n n₁} : q ≠ .absent → q' ≠ .absent →
      Binds sc (.expr q) n (.expr q') n₁ →
      Binds sc (.expr (.name ident q level)) n (.expr (.name ident q' level)) n₁
  | call {sc x x' xs xs' n n₁ n₂} : Binds sc (.expr x) n (.expr x') n₁ →
      Binds sc (.args xs) n₁ (.args xs') n₂ → Binds sc (.expr (.call x xs)) n (.expr (.call x' xs')) n₂
  | this {sc n} : Binds sc (.expr .this) n (.expr .this) n
  | literal {sc text n} : Binds sc (.expr (.literal text)) n (.expr (.literal text)) n
  | binary {sc op x x' y y' n n₁ n₂} : Binds sc (.expr x) n (.expr x') n₁ →
      Binds sc (.expr y) n₁ (.expr y') n₂ →
      Binds sc (.expr (.binary op x y)) n (.expr (.binary op x' y')) n₂
  | unary {sc op x x' n n₁} : Binds sc (.expr x) n (.expr x') n₁ →
      Binds sc (.expr (.unary op x)) n (.expr (.unary op x')) n₁
  | func {sc f f' n n₁} : Binds sc (.function f) n (.function f') n₁ →
      Binds sc (.expr (.func f)) n (.expr (.func f')) n₁
  | noArgs {sc n} : Binds sc (.args []) n (.args []) n
  | moreArgs {sc x x' xs xs' n n₁ n₂} : Binds sc (.expr x) n (.expr x') n₁ →
      Binds sc (.args xs) n₁ (.args xs') n₂ → Binds sc (.args (x :: xs)) n (.args (x' :: xs')) n₂
  | absentStmt {sc n} : Binds sc (.stmt .absent) n (.stmt .absent) n
  | block {sc ss ss' n n₁} : Binds sc (.stmts ss) n (.stmts ss') n₁ →
      Binds sc (.stmt (.block ss)) n (.stmt (.block ss')) n₁
  | exprStmt {sc x x' n n₁} : Binds sc (.expr x) n (.expr x') n₁ →
      Binds sc (.stmt (.expr x)) n (.stmt (.expr x')) n₁
  | ret {sc x x' n n₁} : Binds sc (.expr x) n (.expr x') n₁ →
      Binds sc (.stmt (.ret x)) n (.stmt (.ret x')) n₁
  | var {sc ds ds' n n₁} : Binds sc (.decls ds) n (.decls ds') n₁ →
      Binds sc (.stmt (.var ds)) n (.stmt (.var ds')) n₁
  | cond {sc x x' s s' t t' n n₁ n₂ n₃} : Binds sc (.expr x) n (.expr x') n₁ →
      Binds sc (.stmt s) n₁ (.stmt s') n₂ → Binds sc (.stmt t) n₂ (.stmt t') n₃ →
      Binds sc (.stmt (.cond x s t)) n (.stmt (.cond x' s' t')) n₃
  | noStmts {sc n} : Binds sc (.stmts []) n (.stmts []) n
  | moreStmts {sc s s' ss ss' n n₁ n₂} : Binds sc (.stmt s) n (.stmt s') n₁ →
      Binds sc (.stmts ss) n₁ (.stmts ss') n₂ → Binds sc (.stmts (s :: ss)) n (.stmts (s' :: ss')) n₂
  | noDecls {sc n} : Binds sc (.decls []) n (.decls []) n
  | moreDecls {sc name x x' ds ds' n n₁ n₂} : Binds sc (.expr x) n (.expr x') n₁ →
      Binds sc (.decls ds) n₁ (.decls ds') n₂ →
      Binds sc (.decls (.mk name x :: ds)) n (.decls (.mk name x' :: ds')) n₂
  /-- The scope of a function is the first around its body. -/
  | function {sc name params names s s' n n₁} : Binds (names :: sc) (.stmt s) n (.stmt s') n₁ →
      Binds sc (.function (.mk name params names s)) n (.function (.mk name params names s')) n₁

/-- Only an absent expression becomes one. -/
theorem bindExpr_ne_absent (around : Scopes) {x : Expr} (hx : x ≠ .absent)
    (names : List String) : ((bindExpr around x).run names).1 ≠ .absent := by
  cases x with
  | absent => exact absurd rfl hx
  | name ident q =>
    cases q with
    | absent =>
      rw [bindExpr]
      split <;> exact Expr.noConfusion
    | _ => exact Expr.noConfusion
  | _ => exact Expr.noConfusion

theorem run_bindExpr_name (around : Scopes) (ident : String) {q : Expr} (hq : q ≠ .absent)
    (level : Option Nat) (names : List String) :
    (bindExpr around (.name ident q level)).run names =
      (.name ident ((bindExpr around q).run names).1 level, ((bindExpr around q).run names).2) := by
  cases q with
  | absent => exact absurd rfl hq
  | _ => rfl

theorem run_bindExpr_alone (around : Scopes) {ident : String}
    (h : isMemberIdent ident = false) (level : Option Nat) (names : List String) :
    (bindExpr around (.name ident .absent level)).run names =
      (.name ident .absent (some (levelOf around ident)),
        if levelOf around ident = around.length then declare ident names else names) := by
  rw [bindExpr, if_neg (by simp [h])]
  unfold resolve
  by_cases hroot : levelOf around ident = around.length
  · simp only [if_pos hroot]
    rfl
  · simp only [if_neg hroot]
    rfl

mutual

theorem binds_bindExpr (around : Scopes) (x : Expr) (names : List String) :
    Binds around (.expr x) names (.expr ((bindExpr around x).run names).1)
      ((bindExpr around x).run names).2 := by
  cases x with
  | absent => exact .absent
  | name ident q =>
    by_cases hq : q = .absent
    · subst hq
      cases hident : isMemberIdent ident with
      | true =>
        rw [bindExpr, if_pos hident]
        exact .member hident
      | false =>
        rw [run_bindExpr_alone around hident]
        exact .alone hident
    · rw [run_bindExpr_name around ident hq]
      exact .qualified hq (bindExpr_ne_absent around hq names) (binds_bindExpr around q names)
  | call callee args => exact .call (binds_bindExpr around callee names) (binds_bindExprs around args _)
  | this => exact .this
  | literal => exact .literal
  | binary op x y => exact .binary (binds_bindExpr around x names) (binds_bindExpr around y _)
  | unary op x => exact .unary (binds_bindExpr around x names)
  | func f => exact .func (binds_bindFunction around f names)

theorem binds_bindExprs (around : Scopes) (xs : List Expr) (names : List String) :
    Binds around (.args xs) names (.args ((bindExprs around xs).run names).1)
      ((bindExprs around xs).run names).2 := by
  cases xs with
  | nil => exact .noArgs
  | cons x xs => exact .moreArgs (binds_bindExpr around x names) (binds_bindExprs around xs _)

theorem binds_bindStmt (around : Scopes) (s : Stmt) (names : List String) :
    Binds around (.stmt s) names (.stmt ((bindStmt around s).run names).1)
      ((bindStmt around s).run names).2 := by
  cases s with
  | absent => exact .absentStmt
  | block ss => exact .block (binds_bindStmts around ss names)
  | expr x => exact .exprStmt (binds_bindExpr around x names)
  | ret x => exact .ret (binds_bindExpr around x names)
  | var ds => exact .var (binds_bindDecls around ds names)
  | cond test yes no =>
    exact .cond (binds_bindExpr around test names) (binds_bindStmt around yes _)
      (binds_bindStmt around no _)

theorem binds_bindStmts (around : Scopes) (ss : List Stmt) (names : List String) :
    Binds around (.stmts ss) names (.stmts ((bindStmts around ss).run names).1)
      ((bindStmts around ss).run names).2 := by
  cases ss with
  | nil => exact .noStmts
  | cons s ss => exact .moreStmts (binds_bindStmt around s names) (binds_bindStmts around ss _)

theorem binds_bindDecls (around : Scopes) (ds : List Decl) (names : List String) :
    Binds around (.decls ds) names (.decls ((bindDecls around ds).run names).1)
      ((bindDecls around ds).run names).2 := by
  cases ds with
  | nil => exact .noDecls
  | cons d ds =>
    cases d with
    | mk name init => exact .moreDecls (binds_bindExpr around init names) (binds_bindDecls around ds _)

theorem binds_bindFunction (around : Scopes) (f : Function) (names : List String) :
    Binds around (.function f) names (.function ((bindFunction around f).run names).1)
      ((bindFunction around f).run names).2 := by
  cases f with
  | mk name params declared body => exact .function (binds_bindStmt (declared :: around) body names)

end

def Part.Raw : Part → Prop
  | .expr x => x.Raw
  | .args xs => ArgsRaw xs
  | .stmt s => s.Raw
  | .stmts ss => StmtsRaw ss
  | .decls ds => DeclsRaw ds
  | .function f => f.Raw

def Part.Bound : Part → Prop
  | .expr x => x.Bound
  | .args xs => ArgsBound xs
  | .stmt s => s.Bound
  | .stmts ss => StmtsBound ss
  | .decls ds => DeclsBound ds
  | .function f => f.Bound

/-- Names are resolved, and function bodies stay blocks. -/
theorem Binds.bound {around : Scopes} {a b : Part} {names names' : List String}
    (h : Binds around a names b names') (ha : a.Raw) : b.Bound ∧ b.Blocks := by
  induction h with
  | function hbody ih =>
    obtain ⟨hbound, hblocks⟩ := ih ha.1
    refine ⟨hbound, hblocks, ?_⟩
    -- a block stays a block
    have hisBody := ha.2
    cases hbody with
    | absentStmt | block => trivial
    | _ => exact hisBody.elim
  | _ =>
    simp_all [Part.Raw, Part.Bound, Part.Blocks, Expr.Raw, ArgsRaw, Stmt.Raw, StmtsRaw, Decl.Raw, DeclsRaw,
      Expr.Bound, ArgsBound, Stmt.Bound, StmtsBound, Decl.Bound, DeclsBound, Expr.Blocks, ArgsBlocks,
      Stmt.Blocks, StmtsBlocks, Decl.Blocks, DeclsBlocks]

end DefaultLowering.Fragment
