import DefaultLowering.Program.Relocation

/-!
# Traversal of method bodies

A traversal visits a body bottom up: the receiver of a call, its arguments, the call; the statements
of a block in order, the block; last the body itself.  `leave` sees each node after its parts and may
replace it.

While a body is walked its method may get a twin, and then the body belongs to the twin: the tree is
relocated as a whole, also the part that was visited before and the part still ahead.  The traversal
keeps track of that.  `moved` holds the relocation that befell the tree so far; when it appears while
some part is visited, the parts visited earlier are relocated after the fact.  `ahead` is the
relocation through which the parts still ahead are seen.

Once there is a fault nothing more is visited.  What was changed before stays changed.
-/

namespace DefaultLowering.Program

/-- What a traversal carries along. -/
structure WalkState (σ : Type) where
  program : Program
  /-- The visitor's own state. -/
  user : σ
  /-- The method that the walked body belongs to. -/
  owner : MethodRef
  fault : Option Fault := none
  /-- The relocation of the tree since the walk began. -/
  moved : Option Relocation := none
  /-- The relocation of what has not been visited yet. -/
  ahead : Option Relocation := none

/-- A step of a traversal. -/
abbrev Walk (σ : Type) := StateM (WalkState σ)

/-- Checks that a node may take the place of another: expressions that of expressions, statements
    that of statements, bodies that of bodies. -/
def Node.replaceBy (old new : Node) : Except Fault Node :=
  match old, new with
  | .expr _, .expr x => .ok (.expr x)
  | .expr _, _ => .error (.replaceExpr old.typeName new.typeName)
  | .stmt _, .stmt s => .ok (.stmt s)
  | .stmt _, _ => .error (.replaceStmt old.typeName new.typeName)
  | .body _, .body b => .ok (.body b)
  | .body _, _ => .error (.replaceBody old.typeName new.typeName)
  | .linkage _, _ => .error (.replaceNode old.typeName)

section

variable {σ : Type}

/-! ## Steps -/

/-- A fault has stopped the traversal. -/
def Walk.halted : Walk σ Bool := return (← get).fault.isSome

/-- Stops the traversal.  The first fault counts. -/
def Walk.halt (f : Fault) : Walk σ Unit :=
  modify fun s => { s with fault := s.fault <|> some f }

/-- Records that the walked tree has been relocated. -/
def Walk.move (r : Relocation) : Walk σ Unit :=
  modify fun s => { s with moved := some r, ahead := some r }

/-- Goes on with `rest` while the visited part `x` is kept.  If `rest` relocates the tree, `x` is
    relocated too. -/
def Walk.holding {α β : Type} (relocate : Relocation → α → α) (x : α) (rest : Walk σ β) :
    Walk σ (α × β) := do
  let before := (← get).moved
  let y ← rest
  match before, (← get).moved with
  | none, some r => return (relocate r x, y)
  | _, _ => return (x, y)

/-- An expression without parts, seen through the relocation of what is ahead. -/
def Walk.seen (x : Expr) : Walk σ Expr := do
  match (← get).ahead with
  | some r => return r.leaf x
  | none => return x

variable (leave : Node → Walk σ Node)

/-- Shows an expression to the visitor. -/
def leaveExpr (x : Expr) : Walk σ Expr := do
  if ← Walk.halted then return x
  match ← leave (.expr x) with
  | .expr y => return y
  | _ => Walk.halt .notABlock; return x

/-- Shows a statement to the visitor. -/
def leaveStmt (s : Stmt) : Walk σ Stmt := do
  if ← Walk.halted then return s
  match ← leave (.stmt s) with
  | .stmt t => return t
  | _ => Walk.halt .notABlock; return s

/-- Shows a body to the visitor. -/
def leaveBody (b : Body) : Walk σ Body := do
  if ← Walk.halted then return b
  match ← leave (.body b) with
  | .body c => return c
  | _ => Walk.halt .notABlock; return b

/-! ## The traversal -/

mutual

/-- Walks an expression. -/
def walkExpr : Expr → Walk σ Expr
  | .absent => return .absent
  | .call pos receiver target args => do
    let receiver ← walkExpr receiver
    let (receiver, args) ← Walk.holding Relocation.expr receiver (walkExprs args)
    leaveExpr leave (.call pos receiver target args)
  | .implicitThis pos => do leaveExpr leave (← Walk.seen (.implicitThis pos))
  | .this pos t => do leaveExpr leave (← Walk.seen (.this pos t))
  | .param pos q => do leaveExpr leave (← Walk.seen (.param pos q))
  | .local pos v => do leaveExpr leave (← Walk.seen (.local pos v))
  | .new pos t => do leaveExpr leave (← Walk.seen (.new pos t))
  | .literal pos value type => do leaveExpr leave (← Walk.seen (.literal pos value type))

def walkExprs : List Expr → Walk σ (List Expr)
  | [] => return []
  | x :: xs => do
    let x ← walkExpr x
    let (x, xs) ← Walk.holding Relocation.expr x (walkExprs xs)
    return x :: xs

end

mutual

/-- Walks a statement.  An absent one is a fault, and no relocation reaches past it. -/
def walkStmt : Stmt → Walk σ Stmt
  | .absent => do
    Walk.halt .absentBodyNode
    modify fun s => { s with ahead := none }
    return .absent
  | .block pos ss => do leaveStmt leave (.block pos (← walkStmts ss))
  | .ret pos x => do leaveStmt leave (.ret pos (← walkExpr leave x))
  | .expr pos x => do leaveStmt leave (.expr pos (← walkExpr leave x))
  | .local pos v init => do leaveStmt leave (.local pos v (← walkExpr leave init))

def walkStmts : List Stmt → Walk σ (List Stmt)
  | [] => return []
  | s :: ss => do
    let s ← walkStmt s
    let (s, ss) ← Walk.holding Relocation.stmt s (walkStmts ss)
    return s :: ss

end

/-- Walks a body.  What comes back for the block of a typed body has to be a block. -/
def walkBody : Body → Walk σ Body
  | .code pos none => leaveBody leave (.code pos none)
  | .code pos (some block) => do
    let stmts ← walkStmts leave block.stmts
    match ← leaveStmt leave (.block block.pos stmts) with
    | .block pos' stmts' => leaveBody leave (.code pos (some ⟨pos', stmts'⟩))
    | _ =>
      Walk.halt .notABlock
      return .code pos (some ⟨block.pos, stmts⟩)
  | .native pos func refs => leaveBody leave (.native pos func refs)

end

/-! ## One method, and all of them -/

/-- What a traversal leaves: the program, the visitor's state, and the fault that stopped it. -/
structure Walked (σ : Type) where
  program : Program
  user : σ
  fault : Option Fault := none

/-- Walks the body of a method and puts it back where it belongs by then. -/
def walkMethod {σ : Type} (leave : Node → Walk σ Node) (m : MethodRef) (w : Walked σ) :
    Walked σ :=
  match (w.program.method m).body with
  | none => w
  | some body =>
    let (body, s) := (walkBody leave body).run { program := w.program, user := w.user, owner := m }
    { program := s.program.setBody s.owner (some body), user := s.user, fault := s.fault }

/-- A traversal of a whole program under way: what it has done, and the methods taken up. -/
structure Round (σ : Type) where
  walked : Walked σ
  seen : List MethodRef

section

variable {σ : Type} (leave : MethodRef → Node → Walk σ Node)

/-- Takes up a method unless that has been done. -/
def takeUp (m : MethodRef) (r : Round σ) : Round σ :=
  if m ∈ r.seen then r
  else ⟨walkMethod (leave m) m r.walked, m :: r.seen⟩

/-- Takes up the methods of a type from the index `i` on, with those that are added on the way. -/
def walkType (t : TypeRef) : (fuel : Nat) → (i : Nat) → Round σ → Round σ
  | 0, _, r => { r with walked := { r.walked with fault := r.walked.fault <|> some .unbounded } }
  | fuel + 1, i, r =>
    if r.walked.fault.isSome then r
    else
      match (r.walked.program.type t).methods[i]? with
      | none => r
      | some m => walkType t fuel (i + 1) (takeUp leave m r)

/-- Goes through all types again and again until a round finds no new method. -/
def walkRounds (bound : Nat) : (fuel : Nat) → Round σ → Round σ
  | 0, r => { r with walked := { r.walked with fault := r.walked.fault <|> some .unbounded } }
  | fuel + 1, r =>
    let next := r.walked.program.declared.foldl (fun r t => walkType leave t bound 0 r) r
    if next.walked.fault.isSome || next.seen.length = r.seen.length then next
    else walkRounds bound fuel next

/-- How many methods a traversal may meet, when at most one is added for each there is. -/
def walkBound (p : Program) : Nat :=
  2 * p.declared.foldr (fun t n => (p.type t).methods.length + n) 0 + 2

/-- Walks the bodies of all methods of the program, each once, type by type.  Methods that are added
    on the way are walked too. -/
def walkProgram (p : Program) (user : σ) : Walked σ :=
  let bound := walkBound p
  (walkRounds leave bound bound ⟨{ program := p, user := user }, []⟩).walked

end

/-! ## Looking only -/

section

variable (descend : Kind → Bool)

/-- The parts of a node, or nothing if the traversal does not go below nodes of its kind. -/
def below (kind : Kind) (parts : List Node) : List Node :=
  if descend kind then parts else []

mutual

/-- The nodes of an expression, each before its parts. -/
def Expr.nodes : Expr → List Node
  | .absent => []
  | .call pos receiver target args =>
    .expr (.call pos receiver target args) :: below descend .call (receiver.nodes ++ nodesOf args)
  | x => [.expr x]

def nodesOf : List Expr → List Node
  | [] => []
  | x :: xs => x.nodes ++ nodesOf xs

end

mutual

/-- The nodes of a statement, each before its parts. -/
def Stmt.nodes : Stmt → List Node
  | .absent => []
  | .block pos ss => .stmt (.block pos ss) :: below descend .block (nodesOfStmts ss)
  | .ret pos x => .stmt (.ret pos x) :: below descend .ret (x.nodes descend)
  | .expr pos x => .stmt (.expr pos x) :: below descend .exprStmt (x.nodes descend)
  | .local pos v init =>
    .stmt (.local pos v init) :: below descend .localDecl (init.nodes descend)

def nodesOfStmts : List Stmt → List Node
  | [] => []
  | s :: ss => s.nodes ++ nodesOfStmts ss

end

/-- The nodes of a body, each before its parts; the linkage of a fragment counts as its parts. -/
def Body.nodes : Body → List Node
  | .code pos none => [.body (.code pos none)]
  | .code pos (some block) =>
    .body (.code pos (some block))
      :: below descend .codeBody (Stmt.nodes descend (.block block.pos block.stmts))
  | .native pos func refs =>
    .body (.native pos func refs) :: below descend .nativeBody (refs.map .linkage)

end

end DefaultLowering.Program
