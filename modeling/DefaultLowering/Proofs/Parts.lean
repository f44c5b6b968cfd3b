import DefaultLowering.Fragment.Tree

/-!
# The parts of a fragment

Expressions, statements, functions and lists of them stand in each other.  A property that all of them
have is said of a `Part`, and shown with one case for each way in which a part is put together
(`Part.induct`).
-/

namespace DefaultLowering.Fragment

/-- A part of a fragment. -/
inductive Part where
  | expr (x : Expr)
  | args (xs : List Expr)
  | stmt (s : Stmt)
  | stmts (ss : List Stmt)
  | decls (ds : List Decl)
  | function (f : Function)

/-- Induction over parts.  The invocation of a name is a case of its own, as it is for renaming. -/
theorem Part.induct {P : Part → Prop} (absent : P (.expr .absent)) (this : P (.expr .this))
    (literal : ∀ text, P (.expr (.literal text)))
    (name : ∀ ident q level, P (.expr q) → P (.expr (.name ident q level)))
    (invoke : ∀ ident q level xs, P (.expr q) → P (.args xs) →
      P (.expr (.call (.name ident q level) xs)))
    (call : ∀ x xs, (∀ ident q level, x ≠ .name ident q level) → P (.expr x) → P (.args xs) →
      P (.expr (.call x xs)))
    (binary : ∀ op x y, P (.expr x) → P (.expr y) → P (.expr (.binary op x y)))
    (unary : ∀ op x, P (.expr x) → P (.expr (.unary op x)))
    (func : ∀ f, P (.function f) → P (.expr (.func f)))
    (noArgs : P (.args [])) (moreArgs : ∀ x xs, P (.expr x) → P (.args xs) → P (.args (x :: xs)))
    (absentStmt : P (.stmt .absent)) (block : ∀ ss, P (.stmts ss) → P (.stmt (.block ss)))
    (exprStmt : ∀ x, P (.expr x) → P (.stmt (.expr x))) (ret : ∀ x, P (.expr x) → P (.stmt (.ret x)))
    (var : ∀ ds, P (.decls ds) → P (.stmt (.var ds)))
    (cond : ∀ x s t, P (.expr x) → P (.stmt s) → P (.stmt t) → P (.stmt (.cond x s t)))
    (noStmts : P (.stmts [])) (moreStmts : ∀ s ss, P (.stmt s) → P (.stmts ss) → P (.stmts (s :: ss)))
    (noDecls : P (.decls []))
    (moreDecls : ∀ name x ds, P (.expr x) → P (.decls ds) → P (.decls (.mk name x :: ds)))
    (function : ∀ name params names s, P (.stmt s) → P (.function (.mk name params names s)))
    (a : Part) : P a := by
  -- what a part is put together from is smaller
  induction hn : sizeOf a using Nat.strongRecOn generalizing a with | ind n ih => ?_
  replace ih : ∀ b, sizeOf b < sizeOf a → P b := fun b hb => ih _ (hn ▸ hb) b rfl
  cases a with
  | expr x =>
    cases x with
    | absent => exact absent
    | this => exact this
    | literal text => exact literal text
    | name => exact name _ _ _ (ih _ (by simp +arith))
    | call x xs =>
      have hxs : P (.args xs) := ih _ (by simp +arith)
      cases x with
      | name => exact invoke _ _ _ _ (ih _ (by simp +arith)) hxs
      | _ => exact call _ _ nofun (ih _ (by simp +arith)) hxs
    | binary => exact binary _ _ _ (ih _ (by simp +arith)) (ih _ (by simp +arith))
    | unary => exact unary _ _ (ih _ (by simp +arith))
    | func => exact func _ (ih _ (by simp +arith))
  | args xs =>
    cases xs with
    | nil => exact noArgs
    | cons => exact moreArgs _ _ (ih _ (by simp +arith)) (ih _ (by simp +arith))
  | stmt s =>
    cases s with
    | absent => exact absentStmt
    | block => exact block _ (ih _ (by simp +arith))
    | expr => exact exprStmt _ (ih _ (by simp +arith))
    | ret => exact ret _ (ih _ (by simp +arith))
    | var => exact var _ (ih _ (by simp +arith))
    | cond =>
      exact cond _ _ _ (ih _ (by simp +arith)) (ih _ (by simp +arith)) (ih _ (by simp +arith))
  | stmts ss =>
    cases ss with
    | nil => exact noStmts
    | cons => exact moreStmts _ _ (ih _ (by simp +arith)) (ih _ (by simp +arith))
  | decls ds =>
    cases ds with
    | nil => exact noDecls
    | cons d =>
      cases d
      exact moreDecls _ _ _ (ih _ (by simp +arith)) (ih _ (by simp +arith))
  | function f =>
    cases f
    exact function _ _ _ _ (ih _ (by simp +arith))

end DefaultLowering.Fragment
