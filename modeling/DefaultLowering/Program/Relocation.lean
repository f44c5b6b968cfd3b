import DefaultLowering.Program.Basic

/-!
# Relocation of a body

When the body of a default method moves to its twin, the receiver becomes the twin's first parameter
and each parameter the twin's copy of it, one place further on.  Relocation substitutes these in a
tree and changes nothing else.
-/

namespace DefaultLowering.Program

/-- The move of a body from a method to its twin. -/
structure Relocation where
  source : MethodRef
  twin : MethodRef
  deriving DecidableEq, Repr, Inhabited

namespace Relocation

/-- The parameter that holds the receiver. -/
def receiver (r : Relocation) : ParamRef := ⟨r.twin, 0⟩

/-- What stands for an expression without parts after the move. -/
def leaf (r : Relocation) : Expr → Expr
  | .this pos _ => .param pos r.receiver
  | .implicitThis pos => .param pos r.receiver
  | .param pos q => .param pos (if q.method = r.source then ⟨r.twin, q.index + 1⟩ else q)
  | x => x

mutual

/-- An expression after the move. -/
def expr (r : Relocation) : Expr → Expr
  | .call pos receiver target args => .call pos (r.expr receiver) target (r.exprs args)
  | .absent => .absent
  | .implicitThis pos => r.leaf (.implicitThis pos)
  | .this pos t => r.leaf (.this pos t)
  | .param pos q => r.leaf (.param pos q)
  | .local pos v => .local pos v
  | .new pos t => .new pos t
  | .literal pos value type => .literal pos value type

def exprs (r : Relocation) : List Expr → List Expr
  | [] => []
  | x :: xs => r.expr x :: r.exprs xs

end

mutual

/-- A statement after the move. -/
def stmt (r : Relocation) : Stmt → Stmt
  | .absent => .absent
  | .block pos ss => .block pos (r.stmts ss)
  | .ret pos x => .ret pos (r.expr x)
  | .expr pos x => .expr pos (r.expr x)
  | .local pos v init => .local pos v (r.expr init)

def stmts (r : Relocation) : List Stmt → List Stmt
  | [] => []
  | s :: ss => r.stmt s :: r.stmts ss

end

mutual

/-- A statement as far as a move reaches that stops at the first absent statement, and whether it
    met none. -/
def reachStmt (r : Relocation) : Stmt → Stmt × Bool
  | .absent => (.absent, false)
  | .block pos ss =>
    let (ss, whole) := r.reachStmts ss
    (.block pos ss, whole)
  | .ret pos x => (.ret pos (r.expr x), true)
  | .expr pos x => (.expr pos (r.expr x), true)
  | .local pos v init => (.local pos v (r.expr init), true)

def reachStmts (r : Relocation) : List Stmt → List Stmt × Bool
  | [] => ([], true)
  | s :: ss =>
    match r.reachStmt s with
    | (s, false) => (s :: ss, false)
    | (s, true) =>
      let (ss, whole) := r.reachStmts ss
      (s :: ss, whole)

end

end Relocation

end DefaultLowering.Program
