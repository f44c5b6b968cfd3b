import DefaultLowering.Proofs.Reading

/-!
# The grammar of fragments

What the readers accept, said without them: `Derives` relates the tokens of a phrase to the tree
that the phrase stands for, one rule for each production.

    Program   = Stmt*
    Stmt      = ';' | '{' Stmt* '}' | 'var' Decl (',' Decl)* [';'] | 'return' [Assign] [';']
              | 'if' '(' Assign ')' Stmt ['else' Stmt] | Assign [';']
    Decl      = ident ['=' Assign]
    Assign    = Operation₁ ['=' Assign]
    Operationₖ = Operationₖ opₖ Operationₖ₊₁ | Operationₖ₊₁            (k = 1, ..., 6)
    Operation₇ = ('!' | '-' | '+' | 'typeof') Operation₇ | Suffixed
    Suffixed  = Primary | Suffixed '.' (ident | member) | Suffixed '(' [Assign (',' Assign)*] ')'
    Primary   = number | string | member | ident | '(' Assign ')'
              | 'function' [ident] '(' [ident (',' ident)* [',']] ')' '{' Stmt* '}'

- `unbound`: a tree before its names are resolved, which resolving them leaves as it is;
- `Derives.isUnbound`, `Derives.isRaw`: the trees of phrases hold no resolved name, and function bodies
  in them are blocks.
-/

namespace DefaultLowering.Fragment

/-! ## Section 1: Trees before their names are resolved -/

mutual

/-- The tree as it is read: no name is resolved, and a function declares its parameters and the
    variables of its body.  Trees are alike in structure when these are the same. -/
def Expr.unbound : Expr → Expr
  | .absent => .absent
  | .name ident q _ => .name ident q.unbound none
  | .call callee args => .call callee.unbound (argsUnbound args)
  | .this => .this
  | .literal text => .literal text
  | .binary op x y => .binary op x.unbound y.unbound
  | .unary op x => .unary op x.unbound
  | .func f => .func f.unbound

def argsUnbound : List Expr → List Expr
  | [] => []
  | x :: xs => x.unbound :: argsUnbound xs

def Stmt.unbound : Stmt → Stmt
  | .absent => .absent
  | .block ss => .block (stmtsUnbound ss)
  | .expr x => .expr x.unbound
  | .ret x => .ret x.unbound
  | .var ds => .var (declsUnbound ds)
  | .cond test yes no => .cond test.unbound yes.unbound no.unbound

def stmtsUnbound : List Stmt → List Stmt
  | [] => []
  | s :: ss => s.unbound :: stmtsUnbound ss

def Decl.unbound : Decl → Decl
  | .mk name init => .mk name init.unbound

def declsUnbound : List Decl → List Decl
  | [] => []
  | d :: ds => d.unbound :: declsUnbound ds

def Function.unbound : Function → Function
  | .mk name params _ body => .declaring name params body.unbound

end

def Part.unbound : Part → Part
  | .expr x => .expr x.unbound
  | .args xs => .args (argsUnbound xs)
  | .stmt s => .stmt s.unbound
  | .stmts ss => .stmts (stmtsUnbound ss)
  | .decls ds => .decls (declsUnbound ds)
  | .function f => .function f.unbound

/-- Resolving the names of a tree changes nothing else. -/
theorem Binds.unbound {around : Scopes} {a b : Part} {names names' : List String}
    (h : Binds around a names b names') : b.unbound = a.unbound := by
  induction h with
  | _ =>
    simp_all [Part.unbound, Expr.unbound, argsUnbound, Stmt.unbound, stmtsUnbound, Decl.unbound,
      declsUnbound, Function.unbound]

theorem unbound_bind (f : Function) (chain : Chain) : (f.bind chain).1.unbound = f.unbound :=
  Part.function.inj (binds_bindFunction (chain.inner.map Scope.names) f chain.root.names).unbound

/-! ## Section 2: Productions -/

/-- The sorts of phrase, each with the tree that it stands for. -/
inductive Phrase where
  /-- The statements of a fragment or of a block. -/
  | stmts (ss : List Stmt)
  | stmt (s : Stmt)
  | decls (ds : List Decl)
  | decl (d : Decl)
  | assign (x : Expr)
  /-- An operation whose operators bind at least as tightly as the level. -/
  | operation (level : Nat) (x : Expr)
  /-- A primary phrase with properties and argument lists behind it. -/
  | suffixed (x : Expr)
  | args (xs : List Expr)
  | primary (x : Expr)
  | params (names : List String)

/-- An optional semicolon. -/
def Ending (ts : List Token) : Prop := ts = [] ∨ ∃ t, t.is ";" = true ∧ ts = [t]

/-- The optional name of a function literal. -/
def Naming (name : String) (ts : List Token) : Prop :=
  (name = "" ∧ ts = []) ∨ ∃ t : Token, t.kind = .ident ∧ name = t.text ∧ ts = [t]

/-- The operators that stand in front of their operand. -/
def Token.isUnary (t : Token) : Bool :=
  (t.kind == .operator && (t.text == "!" || t.text == "-" || t.text == "+"))
    || (t.kind == .ident && t.text == "typeof")

/-- What a word stands for. -/
def wordExpr (text : String) : Expr :=
  if text = "this" then .this
  else if text ∈ ["true", "false", "null", "undefined"] then .literal text
  else .name text .absent none

/-- The tokens are a phrase that stands for the given tree. -/
inductive Derives : Phrase → List Token → Prop where
  | noStmts : Derives (.stmts []) []
  /-- An empty statement leaves nothing in a list. -/
  | emptyStmt {ss ts us} : Derives (.stmt .absent) ts → Derives (.stmts ss) us →
      Derives (.stmts ss) (ts ++ us)
  | moreStmts {s ss ts us} : s ≠ .absent → Derives (.stmt s) ts → Derives (.stmts ss) us →
      Derives (.stmts (s :: ss)) (ts ++ us)
  | semicolon {t} : t.is ";" = true → Derives (.stmt .absent) [t]
  | block {o c ss ts} : o.is "\x7b" = true → Derives (.stmts ss) ts → c.is "\x7d" = true →
      Derives (.stmt (.block ss)) (o :: (ts ++ [c]))
  | var {v ds ts e} : v.is "var" = true → Derives (.decls ds) ts → Ending e →
      Derives (.stmt (.var ds)) (v :: (ts ++ e))
  | bareReturn {r e} : r.is "return" = true → Ending e → Derives (.stmt (.ret .absent)) (r :: e)
  | returnValue {r x ts e} : r.is "return" = true → Derives (.assign x) ts → Ending e →
      Derives (.stmt (.ret x)) (r :: (ts ++ e))
  | cond {i o test ts c yes us} : i.is "if" = true → o.is "(" = true → Derives (.assign test) ts →
      c.is ")" = true → Derives (.stmt yes) us →
      Derives (.stmt (.cond test yes .absent)) (i :: o :: (ts ++ c :: us))
  | condElse {i o test ts c yes us e no vs} : i.is "if" = true → o.is "(" = true →
      Derives (.assign test) ts → c.is ")" = true → Derives (.stmt yes) us → e.is "else" = true →
      Derives (.stmt no) vs →
      Derives (.stmt (.cond test yes no)) (i :: o :: (ts ++ c :: (us ++ e :: vs)))
  | exprStmt {x ts e} : Derives (.assign x) ts → Ending e → Derives (.stmt (.expr x)) (ts ++ e)
  | lastDecl {d ts} : Derives (.decl d) ts → Derives (.decls [d]) ts
  | moreDecls {d ts c ds us} : Derives (.decl d) ts → c.is "," = true → Derives (.decls ds) us →
      Derives (.decls (d :: ds)) (ts ++ c :: us)
  | bareDecl {t} : t.kind = .ident → Derives (.decl (.mk t.text .absent)) [t]
  | initDecl {t e x ts} : t.kind = .ident → e.is "=" = true → Derives (.assign x) ts →
      Derives (.decl (.mk t.text x)) (t :: e :: ts)
  | unassigned {x ts} : Derives (.operation 1 x) ts → Derives (.assign x) ts
  | assignment {x ts e y us} : Derives (.operation 1 x) ts → e.is "=" = true →
      Derives (.assign y) us → Derives (.assign (.binary "=" x y)) (ts ++ e :: us)
  | binary {k x ts o y us} : o.kind = .operator → binaryPower o.text = some k →
      Derives (.operation k x) ts → Derives (.operation (k + 1) y) us →
      Derives (.operation k (.binary o.text x y)) (ts ++ o :: us)
  | tighter {k x ts} : 1 ≤ k → k ≤ 6 → Derives (.operation (k + 1) x) ts →
      Derives (.operation k x) ts
  | unary {o x ts} : o.isUnary = true → Derives (.operation 7 x) ts →
      Derives (.operation 7 (.unary o.text x)) (o :: ts)
  | plain {x ts} : Derives (.suffixed x) ts → Derives (.operation 7 x) ts
  | unsuffixed {x ts} : Derives (.primary x) ts → Derives (.suffixed x) ts
  | property {x ts d n} : Derives (.suffixed x) ts → d.is "." = true →
      n.kind = .ident ∨ n.kind = .member →
      Derives (.suffixed (.name n.text x none)) (ts ++ [d, n])
  | call {x ts o xs us c} : Derives (.suffixed x) ts → o.is "(" = true → Derives (.args xs) us →
      c.is ")" = true → Derives (.suffixed (.call x xs)) (ts ++ o :: (us ++ [c]))
  | noArgs : Derives (.args []) []
  | lastArg {x ts} : Derives (.assign x) ts → Derives (.args [x]) ts
  | moreArgs {x ts c xs us} : Derives (.assign x) ts → c.is "," = true → xs ≠ [] →
      Derives (.args xs) us → Derives (.args (x :: xs)) (ts ++ c :: us)
  | literal {t} : t.kind = .number ∨ t.kind = .string → Derives (.primary (.literal t.text)) [t]
  | member {t} : t.kind = .member → Derives (.primary (.name t.text .absent none)) [t]
  /-- Any word but the two that begin a phrase of their own. -/
  | word {t} : t.kind = .ident → t.text ≠ "function" → t.text ≠ "typeof" →
      Derives (.primary (wordExpr t.text)) [t]
  | parens {o x ts c} : o.is "(" = true → Derives (.assign x) ts → c.is ")" = true →
      Derives (.primary x) (o :: (ts ++ [c]))
  | func {k name n o ps us c b ss ts e} : k.is "function" = true → Naming name n →
      o.is "(" = true → Derives (.params ps) us → c.is ")" = true → b.is "\x7b" = true →
      Derives (.stmts ss) ts → e.is "\x7d" = true →
      Derives (.primary (.func (.declaring name ps (.block ss))))
        (k :: (n ++ o :: (us ++ c :: b :: (ts ++ [e]))))
  | noParams : Derives (.params []) []
  | lastParam {t} : t.kind = .ident → Derives (.params [t.text]) [t]
  /-- A comma may stand behind the last parameter. -/
  | lastParamComma {t c} : t.kind = .ident → c.is "," = true → Derives (.params [t.text]) [t, c]
  | moreParams {t c ps us} : t.kind = .ident → c.is "," = true → ps ≠ [] → Derives (.params ps) us →
      Derives (.params (t.text :: ps)) (t :: c :: us)

/-- The tree of a phrase holds no resolved name. -/
def Phrase.IsUnbound : Phrase → Prop
  | .stmts ss => stmtsUnbound ss = ss
  | .stmt s => s.unbound = s
  | .decls ds => declsUnbound ds = ds
  | .decl d => d.unbound = d
  | .assign x | .operation _ x | .suffixed x | .primary x => x.unbound = x
  | .args xs => argsUnbound xs = xs
  | .params _ => True

theorem Derives.isUnbound {φ : Phrase} {ts : List Token} (h : Derives φ ts) : φ.IsUnbound := by
  induction h with
  | word =>
    show (wordExpr _).unbound = wordExpr _
    unfold wordExpr
    split
    · rfl
    split <;> rfl
  | _ =>
    simp_all [Phrase.IsUnbound, Expr.unbound, argsUnbound, Stmt.unbound, stmtsUnbound, Decl.unbound,
      declsUnbound, Function.unbound, Function.declaring]

/-- In the tree of a phrase function bodies are blocks, besides. -/
def Phrase.IsRaw : Phrase → Prop
  | .stmts ss => StmtsRaw ss
  | .stmt s => s.Raw
  | .decls ds => DeclsRaw ds
  | .decl d => d.Raw
  | .assign x | .operation _ x | .suffixed x | .primary x => x.Raw
  | .args xs => ArgsRaw xs
  | .params _ => True

theorem Derives.isRaw {φ : Phrase} {ts : List Token} (h : Derives φ ts) : φ.IsRaw := by
  induction h with
  | word =>
    show (wordExpr _).Raw
    unfold wordExpr
    split
    · trivial
    split
    · trivial
    · exact ⟨rfl, trivial⟩
  | _ =>
    simp_all [Phrase.IsRaw, Expr.Raw, ArgsRaw, Stmt.Raw, StmtsRaw, Decl.Raw, DeclsRaw, Function.Raw,
      Function.declaring, Stmt.IsBody]

end DefaultLowering.Fragment
