import DefaultLowering.Fragment.Lexer
import DefaultLowering.Fragment.Tree

/-!
# Reading statements and expressions

A recursive descent over the token list.  Every reader returns what it has not used together with the
fact that this is shorter than what it was given, so a reader that succeeds has used a token and the
recursion is on the number of tokens left.  `stop` is the offset of the end of the fragment, where
errors about a missing token are reported.

The readers give names no level; `Fragment.Binding` resolves them once the whole tree is known.
-/

namespace DefaultLowering.Fragment

/-! ## Operators -/

/-- How tightly a binary operator binds; assignment, which binds loosest, is not in the table. -/
def binaryPower : String → Option Nat
  | "||" => some 1
  | "&&" => some 2
  | "==" | "!=" | "===" | "!==" => some 3
  | "<" | ">" | "<=" | ">=" => some 4
  | "+" | "-" => some 5
  | "*" | "/" | "%" => some 6
  | _ => none

/-! ## Scope of a function -/

/-- The list without the entries that repeat an earlier one. -/
def withoutRepeats (seen : List String) : List String → List String
  | [] => seen
  | x :: xs => withoutRepeats (if x ∈ seen then seen else seen ++ [x]) xs

mutual

/-- The variables declared by a statement, outside function literals, in order of their
    declaration. -/
def Stmt.declared : Stmt → List String
  | .var decls => decls.map Decl.name
  | .block stmts => declaredIn stmts
  | .cond _ yes no => yes.declared ++ no.declared
  | .absent | .expr _ | .ret _ => []

/-- The variables declared by a list of statements. -/
def declaredIn : List Stmt → List String
  | [] => []
  | s :: ss => s.declared ++ declaredIn ss

end

/-- A function with the scope that its parameters and its body declare. -/
def Function.declaring (name : String) (params : List String) (body : Stmt) : Function :=
  .mk name params (withoutRepeats [] (params ++ body.declared)) body

/-! ## Reading tokens -/

/-- What is left of the tokens `ts` once at least one has been used. -/
abbrev Rest (ts : List Token) := { rest : List Token // rest.length < ts.length }

/-- What is left of the tokens `ts`. -/
abbrev Tail (ts : List Token) := { rest : List Token // rest.length ≤ ts.length }

/-- The token is the given word or operator. -/
def Token.is (t : Token) (text : String) : Bool :=
  (t.kind == .operator || t.kind == .ident) && t.text == text

/-- The next token is the given word or operator. -/
def nextIs (text : String) : List Token → Bool
  | [] => false
  | t :: _ => t.is text

/-- The offset of the next token. -/
def nextOffset (stop : Nat) : List Token → Nat
  | [] => stop
  | t :: _ => t.offset

/-- Uses the given word or operator. -/
def expect (stop : Nat) (text : String) (ts : List Token) : Except SyntaxError (Rest ts) :=
  match ts with
  | [] => .error ⟨stop, .expected text ""⟩
  | t :: rest =>
    if t.is text then .ok ⟨rest, Nat.lt_succ_self _⟩
    else .error ⟨t.offset, .expected text t.text⟩

/-- Uses the given word or operator if it comes next. -/
def accept? (text : String) (ts : List Token) : Option (Rest ts) :=
  match ts with
  | [] => none
  | t :: rest => if t.is text then some ⟨rest, Nat.lt_succ_self _⟩ else none

/-- Uses an optional semicolon. -/
def optionalEnd (ts : List Token) : Tail ts :=
  match accept? ";" ts with
  | some ⟨rest, h⟩ => ⟨rest, Nat.le_of_lt h⟩
  | none => ⟨ts, Nat.le_refl _⟩

/-- Reads a token whose kind is one of `kinds`, else reports `cause` of the text found. -/
def tokenOf (stop : Nat) (kinds : List TokenKind) (cause : String → SyntaxCause)
    (ts : List Token) : Except SyntaxError (String × Rest ts) :=
  match ts with
  | [] => .error ⟨stop, cause ""⟩
  | t :: rest =>
    if t.kind ∈ kinds then .ok (t.text, ⟨rest, Nat.lt_succ_self _⟩)
    else .error ⟨t.offset, cause t.text⟩

/-- Reads parameter names up to and including the closing parenthesis.  A comma may stand before
    it. -/
def readParams (stop : Nat) (ts : List Token) : Except SyntaxError (List String × Rest ts) :=
  match accept? ")" ts with
  | some rest => .ok ([], rest)
  | none => do
    let ⟨name, rest, h⟩ ← tokenOf stop [.ident] .expectedParameter ts
    if nextIs ")" rest then
      let ⟨names, rest', h'⟩ ← readParams stop rest
      return (name :: names, ⟨rest', by omega⟩)
    else
      let ⟨rest', h'⟩ ← expect stop "," rest
      let ⟨names, rest'', h''⟩ ← readParams stop rest'
      return (name :: names, ⟨rest'', by omega⟩)
  termination_by ts.length

/-! ## The grammar -/

mutual

/-- Reads statements up to the token `closer`, which it leaves, or to the end of the fragment when
    there is none.  Empty statements leave no node. -/
def readStmts (stop : Nat) (closer : Option String) (ts : List Token) :
    Except SyntaxError (List Stmt × Tail ts) :=
  match ts with
  | [] =>
    if closer.isNone then .ok ([], ⟨[], Nat.le_refl _⟩) else .error ⟨stop, .endOfFragment⟩
  | t :: rest =>
    if t.kind == .operator && some t.text == closer then .ok ([], ⟨t :: rest, Nat.le_refl _⟩)
    else do
      let ⟨s, rest', h⟩ ← readStmt stop (t :: rest)
      let ⟨ss, rest'', h'⟩ ← readStmts stop closer rest'
      match s with
      | .absent => return (ss, ⟨rest'', by omega⟩)
      | s => return (s :: ss, ⟨rest'', by omega⟩)
  termination_by 10 * ts.length + 9
  decreasing_by all_goals (simp only [List.length_cons] at *; omega)

/-- Reads one statement; a semicolon alone is an absent one. -/
def readStmt (stop : Nat) (ts : List Token) : Except SyntaxError (Stmt × Rest ts) :=
  match ts with
  | [] => .error ⟨stop, .endOfFragment⟩
  | t :: rest =>
    if t.is ";" then .ok (.absent, ⟨rest, Nat.lt_succ_self _⟩)
    else if t.is "\x7b" then do
      let ⟨ss, rest', h⟩ ← readBlock stop (t :: rest)
      return (.block ss, ⟨rest', h⟩)
    else if t.is "var" then do
      let ⟨ds, rest', h⟩ ← readDecls stop rest
      let ⟨rest'', h'⟩ := optionalEnd rest'
      return (.var ds, ⟨rest'', by simp only [List.length_cons]; omega⟩)
    else if t.is "return" then
      if nextIs ";" rest || nextIs "\x7d" rest || rest.isEmpty then
        let ⟨rest', h⟩ := optionalEnd rest
        .ok (.ret .absent, ⟨rest', by simp only [List.length_cons]; omega⟩)
      else do
        let ⟨x, rest', h⟩ ← readAssign stop rest
        let ⟨rest'', h'⟩ := optionalEnd rest'
        return (.ret x, ⟨rest'', by simp only [List.length_cons]; omega⟩)
    else if t.is "if" then do
      let ⟨r1, h1⟩ ← expect stop "(" rest
      let ⟨test, r2, h2⟩ ← readAssign stop r1
      let ⟨r3, h3⟩ ← expect stop ")" r2
      let ⟨yes, r4, h4⟩ ← readStmt stop r3
      match accept? "else" r4 with
      | none => return (.cond test yes .absent, ⟨r4, by simp only [List.length_cons]; omega⟩)
      | some ⟨r5, h5⟩ =>
        let ⟨no, r6, h6⟩ ← readStmt stop r5
        return (.cond test yes no, ⟨r6, by simp only [List.length_cons]; omega⟩)
    else do
      let ⟨x, rest', h⟩ ← readAssign stop (t :: rest)
      let ⟨rest'', h'⟩ := optionalEnd rest'
      return (.expr x, ⟨rest'', by omega⟩)
  termination_by 10 * ts.length + 8
  decreasing_by all_goals (try simp only [List.length_cons] at *); all_goals omega

/-- Reads a block with its braces. -/
def readBlock (stop : Nat) (ts : List Token) : Except SyntaxError (List Stmt × Rest ts) := do
  let ⟨r1, h1⟩ ← expect stop "\x7b" ts
  let ⟨ss, r2, h2⟩ ← readStmts stop (some "\x7d") r1
  return (ss, ⟨r2.tail, by simp only [List.length_tail]; omega⟩)
  termination_by 10 * ts.length + 7

/-- Reads the declarators of a `var` statement. -/
def readDecls (stop : Nat) (ts : List Token) : Except SyntaxError (List Decl × Rest ts) := do
  let ⟨name, r1, h1⟩ ← tokenOf stop [.ident] .expectedVariable ts
  let ⟨init, r2, h2⟩ ← readInit stop r1
  match accept? "," r2 with
  | none => return ([.mk name init], ⟨r2, by omega⟩)
  | some ⟨r3, h3⟩ =>
    let ⟨ds, r4, h4⟩ ← readDecls stop r3
    return (.mk name init :: ds, ⟨r4, by omega⟩)
  termination_by 10 * ts.length

/-- Reads the initial value of a variable if there is one. -/
def readInit (stop : Nat) (ts : List Token) : Except SyntaxError (Expr × Tail ts) :=
  match accept? "=" ts with
  | none => .ok (.absent, ⟨ts, Nat.le_refl _⟩)
  | some ⟨r1, h1⟩ => do
    let ⟨x, r2, h2⟩ ← readAssign stop r1
    return (x, ⟨r2, by omega⟩)
  termination_by 10 * ts.length

/-- Reads an expression; assignment associates to the right. -/
def readAssign (stop : Nat) (ts : List Token) : Except SyntaxError (Expr × Rest ts) := do
  let ⟨x, r1, h1⟩ ← readBinary stop 1 ts
  match accept? "=" r1 with
  | none => return (x, ⟨r1, h1⟩)
  | some ⟨r2, h2⟩ =>
    let ⟨y, r3, h3⟩ ← readAssign stop r2
    return (.binary "=" x y, ⟨r3, by omega⟩)
  termination_by 10 * ts.length + 6

/-- Reads an operation whose operators bind at least as tightly as `power`. -/
def readBinary (stop power : Nat) (ts : List Token) : Except SyntaxError (Expr × Rest ts) := do
  let ⟨x, r1, h1⟩ ← readUnary stop ts
  let ⟨y, r2, h2⟩ ← readOperators stop power x r1
  return (y, ⟨r2, by omega⟩)
  termination_by 10 * ts.length + 5

/-- Reads the operators and right operands that follow `x`; equal operators associate to the
    left. -/
def readOperators (stop power : Nat) (x : Expr) (ts : List Token) :
    Except SyntaxError (Expr × Tail ts) :=
  match ts with
  | [] => .ok (x, ⟨[], Nat.le_refl _⟩)
  | t :: rest =>
    match binaryPower t.text with
    | none => .ok (x, ⟨t :: rest, Nat.le_refl _⟩)
    | some p =>
      if t.kind == .operator && power ≤ p then do
        let ⟨y, r1, h1⟩ ← readBinary stop (p + 1) rest
        let ⟨z, r2, h2⟩ ← readOperators stop power (.binary t.text x y) r1
        return (z, ⟨r2, Nat.le_succ_of_le (Nat.le_trans h2 (Nat.le_of_lt h1))⟩)
      else .ok (x, ⟨t :: rest, Nat.le_refl _⟩)
  termination_by 10 * ts.length
  decreasing_by all_goals (try simp only [List.length_cons] at *); all_goals omega

/-- Reads a unary operation. -/
def readUnary (stop : Nat) (ts : List Token) : Except SyntaxError (Expr × Rest ts) :=
  match ts with
  | [] => .error ⟨stop, .endOfFragment⟩
  | t :: rest =>
    if (t.kind == .operator && (t.text == "!" || t.text == "-" || t.text == "+"))
        || (t.kind == .ident && t.text == "typeof") then do
      let ⟨x, r1, h1⟩ ← readUnary stop rest
      return (.unary t.text x, ⟨r1, by simp only [List.length_cons]; omega⟩)
    else do
      let ⟨x, r1, h1⟩ ← readPrimary stop (t :: rest)
      let ⟨y, r2, h2⟩ ← readPostfix stop x r1
      return (y, ⟨r2, by omega⟩)
  termination_by 10 * ts.length + 4
  decreasing_by all_goals (try simp only [List.length_cons] at *); all_goals omega

/-- Reads the properties and argument lists that follow `x`. -/
def readPostfix (stop : Nat) (x : Expr) (ts : List Token) : Except SyntaxError (Expr × Tail ts) :=
  match accept? "." ts with
  | some ⟨r1, h1⟩ => do
    let ⟨name, r2, h2⟩ ← tokenOf stop [.ident, .member] .expectedProperty r1
    let ⟨y, r3, h3⟩ ← readPostfix stop (.name name x none) r2
    return (y, ⟨r3, by omega⟩)
  | none =>
    match accept? "(" ts with
    | some ⟨r1, h1⟩ => do
      let ⟨args, r2, h2⟩ ← readArgs stop r1
      let ⟨y, r3, h3⟩ ← readPostfix stop (.call x args) r2
      return (y, ⟨r3, by omega⟩)
    | none => .ok (x, ⟨ts, Nat.le_refl _⟩)
  termination_by 10 * ts.length

/-- Reads arguments up to and including the closing parenthesis. -/
def readArgs (stop : Nat) (ts : List Token) : Except SyntaxError (List Expr × Rest ts) :=
  match accept? ")" ts with
  | some rest => .ok ([], rest)
  | none => readArgList stop ts
  termination_by 10 * ts.length + 8

/-- Reads at least one argument. -/
def readArgList (stop : Nat) (ts : List Token) : Except SyntaxError (List Expr × Rest ts) := do
  let ⟨x, r1, h1⟩ ← readAssign stop ts
  match accept? ")" r1 with
  | some ⟨r2, h2⟩ => return ([x], ⟨r2, by omega⟩)
  | none =>
    let ⟨r2, h2⟩ ← expect stop "," r1
    let ⟨xs, r3, h3⟩ ← readArgList stop r2
    return (x :: xs, ⟨r3, by omega⟩)
  termination_by 10 * ts.length + 7

/-- Reads a name, a literal, a function literal or an expression in parentheses. -/
def readPrimary (stop : Nat) (ts : List Token) : Except SyntaxError (Expr × Rest ts) :=
  match ts with
  | [] => .error ⟨stop, .endOfFragment⟩
  | t :: rest =>
    match t.kind with
    | .number | .string => .ok (.literal t.text, ⟨rest, Nat.lt_succ_self _⟩)
    | .member => .ok (.name t.text .absent none, ⟨rest, Nat.lt_succ_self _⟩)
    | .ident =>
      if t.text == "this" then .ok (.this, ⟨rest, Nat.lt_succ_self _⟩)
      else if t.text == "true" || t.text == "false" || t.text == "null"
          || t.text == "undefined" then
        .ok (.literal t.text, ⟨rest, Nat.lt_succ_self _⟩)
      else if t.text == "function" then do
        let ⟨f, r1, h1⟩ ← readFunction stop rest
        return (.func f, ⟨r1, by simp only [List.length_cons]; omega⟩)
      else .ok (.name t.text .absent none, ⟨rest, Nat.lt_succ_self _⟩)
    | .operator =>
      if t.text == "(" then do
        let ⟨x, r1, h1⟩ ← readAssign stop rest
        let ⟨r2, h2⟩ ← expect stop ")" r1
        return (x, ⟨r2, by simp only [List.length_cons]; omega⟩)
      else .error ⟨t.offset, .unexpected t.text⟩
  termination_by 10 * ts.length + 3
  decreasing_by all_goals (try simp only [List.length_cons] at *); all_goals omega

/-- Reads a function literal after its keyword. -/
def readFunction (stop : Nat) (ts : List Token) : Except SyntaxError (Function × Rest ts) := do
  let ⟨name, r0, h0⟩ : String × Tail ts :=
    match tokenOf stop [.ident] .unexpected ts with
    | .ok (name, ⟨rest, h⟩) => (name, ⟨rest, Nat.le_of_lt h⟩)
    | .error _ => ("", ⟨ts, Nat.le_refl _⟩)
  let ⟨r1, h1⟩ ← expect stop "(" r0
  let ⟨params, r2, h2⟩ ← readParams stop r1
  let ⟨body, r3, h3⟩ ← readBlock stop r2
  return (.declaring name params (.block body), ⟨r3, by omega⟩)
  termination_by 10 * ts.length

end

/-- Reads a whole fragment as the body of a function with the given parameters.  Its names are not
    resolved yet. -/
def readFragment (source : String) (params : List String) : Except SyntaxError Function := do
  let ⟨tokens, stop⟩ ← lex source
  let ⟨body, _⟩ ← readStmts stop none tokens
  return .declaring "" params (.block body)

end DefaultLowering.Fragment
