import DefaultLowering.Fragment.Printer
import DefaultLowering.Proofs.Phrases
import DefaultLowering.Proofs.Lexemes

/-!
# The words of a written fragment

A tree is written word by word: `words` lists the words that `render` writes, in their order.  What
is asked of a tree so that its text can be read again is asked of each node of it (`Stmt.all`).

- `Node.isSpelled`: the names, literals and operators of a node are single words, and nothing that
  the node needs is missing;
- `Node.isLegible`: no word of the node runs into the sign behind it, and no `else` of it would be
  taken by another conditional;
- `Expr.opening_words`: which words a written expression begins with.
-/

namespace DefaultLowering.Fragment

/-! ## Section 1: Words in their order -/

/-- An operator or a bracket. -/
def Word.sign (text : String) : Word := ⟨.operator, text⟩

/-- A word of letters. -/
def Word.plain (text : String) : Word := ⟨.ident, text⟩

/-- The word of a name. -/
def nameWord (ident : String) : Word :=
  ⟨if Word.isLexeme ⟨.member, ident⟩ then .member else .ident, ident⟩

/-- The word of a literal. -/
def literalWord (text : String) : Word :=
  ⟨if Word.isLexeme ⟨.number, text⟩ then .number
    else if Word.isLexeme ⟨.string, text⟩ then .string else .ident, text⟩

/-- The word of an operator in front of its operand. -/
def unaryWord (op : String) : Word := ⟨if op = "typeof" then .ident else .operator, op⟩

/-- Words in parentheses if they are needed. -/
def wrapped (needed : Bool) (ws : List Word) : List Word :=
  if needed then .sign "(" :: (ws ++ [.sign ")"]) else ws

/-- The words of several things with commas between them. -/
def listed : List (List Word) → List Word
  | [] => []
  | ws :: wss => ws ++ wss.flatMap (.sign "," :: ·)

def Expr.isAbsent : Expr → Bool
  | .absent => true
  | _ => false

def Stmt.isAbsent : Stmt → Bool
  | .absent => true
  | _ => false

/-- What stands in front of a word when there is something there. -/
def joint (absent : Bool) (w : Word) : List Word := if absent then [] else [w]

/-- The optional name of a function. -/
def nameWords (name : String) : List Word := joint (name == "") (.plain name)

mutual

/-- The words of an expression in a place that asks for the binding power `min`. -/
def Expr.words (min : Nat) : Expr → List Word
  | .absent => []
  | .name ident q _ => q.words powerPostfix ++ joint q.isAbsent (.sign ".") ++ [nameWord ident]
  | .call callee args =>
    callee.words powerPostfix ++ .sign "(" :: (listed (argsWords args) ++ [.sign ")"])
  | .this => [.plain "this"]
  | .literal text => [literalWord text]
  | .binary op x y =>
    let own := if op = "=" then powerAssign else (binaryPower op).getD 0
    let left := if op = "=" then powerAssign + 1 else own
    let right := if op = "=" then powerAssign else own + 1
    wrapped (own < min) (x.words left ++ .sign op :: y.words right)
  | .unary op x => wrapped (powerUnary < min) (unaryWord op :: x.words powerUnary)
  | .func f => wrapped (powerUnary < min) f.words

def argsWords : List Expr → List (List Word)
  | [] => []
  | x :: xs => x.words (powerAssign + 1) :: argsWords xs

/-- The words of a statement. -/
def Stmt.words : Stmt → List Word
  | .absent => [.sign ";"]
  | .block ss => .sign "\x7b" :: (stmtsWords ss ++ [.sign "\x7d"])
  | .expr x => x.words powerAssign ++ [.sign ";"]
  | .ret x => .plain "return" :: (x.words powerAssign ++ [.sign ";"])
  | .var ds => .plain "var" :: (listed (declsWords ds) ++ [.sign ";"])
  | .cond test yes no =>
    .plain "if" :: .sign "(" :: (test.words powerAssign ++ .sign ")" ::
      (yes.words ++ if no.isAbsent then [] else .plain "else" :: no.words))

def stmtsWords : List Stmt → List Word
  | [] => []
  | s :: ss => s.words ++ stmtsWords ss

def Decl.words : Decl → List Word
  | .mk name init =>
    .plain name :: (joint init.isAbsent (.sign "=") ++ init.words (powerAssign + 1))

def declsWords : List Decl → List (List Word)
  | [] => []
  | d :: ds => d.words :: declsWords ds

def Function.words : Function → List Word
  | .mk name params _ body =>
    .plain "function" :: (nameWords name ++ .sign "(" ::
      (listed (params.map fun p => [.plain p]) ++ .sign ")" ::
        if body.isAbsent then [.sign "\x7b", .sign "\x7d"] else body.words))

end

/-! ## Section 2: Checks at every node -/

mutual

/-- Every node of the expression passes the check. -/
def Expr.all (p : Node → Bool) : Expr → Bool
  | .absent => true
  | .name ident q level => p (.expr (.name ident q level)) && q.all p
  | .call callee args => p (.expr (.call callee args)) && callee.all p && argsAll p args
  | .this => p (.expr .this)
  | .literal text => p (.expr (.literal text))
  | .binary op x y => p (.expr (.binary op x y)) && x.all p && y.all p
  | .unary op x => p (.expr (.unary op x)) && x.all p
  | .func f => p (.expr (.func f)) && f.all p

def argsAll (p : Node → Bool) : List Expr → Bool
  | [] => true
  | x :: xs => x.all p && argsAll p xs

def Stmt.all (p : Node → Bool) : Stmt → Bool
  | .absent => true
  | .block ss => p (.stmt (.block ss)) && stmtsAll p ss
  | .expr x => p (.stmt (.expr x)) && x.all p
  | .ret x => p (.stmt (.ret x)) && x.all p
  | .var ds => p (.stmt (.var ds)) && declsAll p ds
  | .cond test yes no => p (.stmt (.cond test yes no)) && test.all p && yes.all p && no.all p

def stmtsAll (p : Node → Bool) : List Stmt → Bool
  | [] => true
  | s :: ss => s.all p && stmtsAll p ss

def Decl.all (p : Node → Bool) : Decl → Bool
  | .mk name init => p (.decl (.mk name init)) && init.all p

def declsAll (p : Node → Bool) : List Decl → Bool
  | [] => true
  | d :: ds => d.all p && declsAll p ds

def Function.all (p : Node → Bool) : Function → Bool
  | .mk name params names body => p (.function (.mk name params names body)) && body.all p

end

def Node.all (p : Node → Bool) : Node → Bool
  | .function f => f.all p
  | .decl d => d.all p
  | .stmt s => s.all p
  | .expr x => x.all p

section

variable {p q r : Node → Bool}

theorem Node.of_all (hexpr : p (.expr .absent) = true) (hstmt : p (.stmt .absent) = true) (n : Node)
    (h : n.all p = true) : p n = true := by
  cases n with
  | function f =>
    obtain ⟨name, params, names, body⟩ := f
    exact (Bool.and_eq_true_iff.mp h).1
  | decl d =>
    obtain ⟨name, init⟩ := d
    exact (Bool.and_eq_true_iff.mp h).1
  | stmt s => cases s <;> simp_all [Node.all, Stmt.all]
  | expr x => cases x <;> simp_all [Node.all, Expr.all]

def Part.all (p : Node → Bool) : Part → Bool
  | .expr x => x.all p
  | .args xs => argsAll p xs
  | .stmt s => s.all p
  | .stmts ss => stmtsAll p ss
  | .decls ds => declsAll p ds
  | .function f => f.all p

/-- A check that follows from others below each node passes where they do. -/
theorem Part.all_of_all (h : ∀ n : Node, n.all p = true → n.all q = true → r n = true) (a : Part)
    (hp : a.all p = true) (hq : a.all q = true) : a.all r = true := by
  induction a using Part.induct with
  | absent | noArgs | absentStmt | noStmts | noDecls => rfl
  | moreArgs | moreStmts => simp_all [Part.all, argsAll, stmtsAll]
  | moreDecls name x =>
    have hn := h (.decl (.mk name x))
    simp_all [Part.all, declsAll, Node.all, Decl.all]
  | invoke ident q level =>
    have hcallee := h (.expr (.name ident q level))
    have hn := h (.expr _) hp hq
    simp_all [Part.all, Node.all, Expr.all]
  | this | literal | name | call | binary | unary | func =>
    have hn := h (.expr _) hp hq
    simp_all [Part.all, Expr.all]
  | block | exprStmt | ret | var | cond =>
    have hn := h (.stmt _) hp hq
    simp_all [Part.all, Stmt.all]
  | function =>
    have hn := h (.function _) hp hq
    simp_all [Part.all, Function.all]

theorem Stmt.all_of_all (h : ∀ n : Node, n.all p = true → n.all q = true → r n = true) (s : Stmt)
    (hp : s.all p = true) (hq : s.all q = true) : s.all r = true :=
  Part.all_of_all h (.stmt s) hp hq

theorem Node.all_mono (h : ∀ n : Node, n.all p = true → r n = true) (n : Node)
    (hp : n.all p = true) : n.all r = true := by
  have hall : ∀ a : Part, a.all p = true → a.all r = true := fun a ha =>
    a.all_of_all (fun n hn _ => h n hn) ha ha
  cases n with
  | function f => exact hall (.function f) hp
  | decl d =>
    have hd := hall (.decls [d])
    simp_all [Part.all, declsAll, Node.all]
  | stmt s => exact hall (.stmt s) hp
  | expr x => exact hall (.expr x) hp

end

/-! ## Section 3: Well-spelled and legible trees -/

/-- The words that no script name can be: they stand for something else in an expression. -/
def expressionWords : List String :=
  ["this", "true", "false", "null", "undefined", "function", "typeof"]

/-- The words that begin a statement or its second branch. -/
def statementWords : List String := ["return", "var", "if", "else"]

/-- An identifier. -/
def isIdentWord (text : String) : Bool := Word.isLexeme (.plain text)

/-- A member reference. -/
def isMemberWord (text : String) : Bool := Word.isLexeme ⟨.member, text⟩

/-- A number, a string, or a word that stands for a value. -/
def isLiteralWord (text : String) : Bool :=
  Word.isLexeme ⟨.number, text⟩ || Word.isLexeme ⟨.string, text⟩
    || text ∈ ["true", "false", "null", "undefined"]

def Stmt.isBlock : Stmt → Bool
  | .block _ => true
  | _ => false

/-- The names, literals and operators of the node are single words, unqualified names none of the
    `reserved` ones, and nothing that the node needs is missing. -/
def Node.isSpelled (reserved : List String) : Node → Bool
  | .expr (.name ident q _) =>
    isMemberWord ident || (isIdentWord ident && (!q.isAbsent || ident ∉ reserved))
  | .expr (.call callee args) => !callee.isAbsent && args.all (!·.isAbsent)
  | .expr (.literal text) => isLiteralWord text
  | .expr (.binary op x y) =>
    (op = "=" || (binaryPower op).isSome) && !x.isAbsent && !y.isAbsent
  | .expr (.unary op x) => op ∈ ["!", "-", "+", "typeof"] && !x.isAbsent
  | .expr (.func _) | .expr .this | .expr .absent => true
  | .function (.mk name params _ body) =>
    (name = "" || isIdentWord name) && params.all isIdentWord && body.isBlock
  | .decl (.mk name _) => isIdentWord name
  | .stmt (.block ss) => ss.all (!·.isAbsent)
  | .stmt (.expr x) => !x.isAbsent
  | .stmt (.var ds) => !ds.isEmpty
  | .stmt (.cond test _ _) => !test.isAbsent
  | .stmt (.ret _) | .stmt .absent => true

/-- A number. -/
def Expr.isNumber : Expr → Bool
  | .literal text => Word.isLexeme ⟨.number, text⟩
  | _ => false

/-- A member reference without a signature. -/
def Expr.isBareMember : Expr → Bool
  | .name ident _ _ => isMemberIdent ident && !isMethodIdent ident
  | _ => false

/-- The statement ends in a conditional without second branch, which would take an `else` that
    follows. -/
def Stmt.isOpen : Stmt → Bool
  | .cond _ _ .absent => true
  | .cond _ _ no => no.isOpen
  | _ => false

/-- No word of the node runs into the sign behind it, and no `else` of it would be taken by another
    conditional. -/
def Node.isLegible : Node → Bool
  | .expr (.name _ q _) => !q.isNumber
  | .expr (.call callee _) => !callee.isBareMember
  | .stmt (.cond _ yes no) => no.isAbsent || !yes.isOpen
  | _ => true

/-- The node is spelled properly, and legible. -/
def Node.isProper (reserved : List String) (n : Node) : Bool := n.isSpelled reserved && n.isLegible

/-- The words begin with the given one. -/
def beginsWith (text : String) (ws : List Word) : Bool := (ws.head?.map Word.text) == some text

/-- No statement of the list is taken for the second branch of the one before it. -/
def noStrayElse : List Stmt → Bool
  | s :: t :: ss => !(s.isOpen && beginsWith "else" t.words) && noStrayElse (t :: ss)
  | _ => true

/-- No statement of the node is taken for one of another sort. -/
def Node.isClear : Node → Bool
  | .stmt (.expr x) => ["var", "return", "if"].all (!beginsWith · (x.words powerAssign))
  | .stmt (.block ss) => noStrayElse ss
  | _ => true

/-! ## Section 4: The first word -/

theorem isMemberIdent_of_isMemberWord {ident : String} (h : isMemberWord ident = true) :
    isMemberIdent ident = true := by
  obtain ⟨c, cs, htext, hextent⟩ := Word.isLexeme_iff.mp h
  rcases extent_eq_some hextent with ⟨-, hkind, -⟩ | ⟨rfl, -⟩ | ⟨-, hkind, -⟩ | ⟨-, hkind, -⟩ |
    ⟨hkind, -⟩
  · cases hkind
  · rw [isMemberIdent, htext]
    rfl
  all_goals cases hkind

theorem kind_nameWord (ident : String) : (nameWord ident).kind ≠ .operator ∧
    (nameWord ident).kind ≠ .number := by
  unfold nameWord
  split <;> exact ⟨nofun, nofun⟩

theorem isLexeme_nameWord {ident : String}
    (h : isMemberWord ident = true ∨ isIdentWord ident = true) :
    (nameWord ident).isLexeme = true := by
  unfold nameWord
  split
  · assumption
  · rename_i hmember
    exact h.resolve_left hmember

theorem isLexeme_literalWord {text : String} (h : isLiteralWord text = true) :
    (literalWord text).isLexeme = true := by
  unfold literalWord
  split
  · assumption
  split
  · assumption
  · rename_i hnumber hstring
    have hvalues : ∀ text ∈ ["true", "false", "null", "undefined"],
        Word.isLexeme ⟨.ident, text⟩ = true := by decide
    simp only [isLiteralWord, hnumber, hstring, Bool.false_or, decide_eq_true_eq] at h
    exact hvalues text h

theorem kind_literalWord (text : String) : (literalWord text).kind ≠ .operator ∧
    (literalWord text).kind ≠ .member := by
  unfold literalWord
  split
  · exact ⟨nofun, nofun⟩
  split <;> exact ⟨nofun, nofun⟩

/-- The word can begin an expression. -/
structure Word.Opens (reserved : List String) (w : Word) : Prop where
  lexeme : w.isLexeme = true
  sign : w.kind = .operator → w.text ∈ ["(", "!", "-", "+"]
  free : w.kind = .ident → w.text ∈ expressionWords ∨ w.text ∉ reserved

/-- The first word can begin an expression. -/
def Opening (reserved : List String) (ws : List Word) : Prop :=
  ∃ w tail, ws = w :: tail ∧ w.Opens reserved

section

variable {reserved : List String}

theorem Opening.append {ws : List Word} (h : Opening reserved ws) (ws' : List Word) :
    Opening reserved (ws ++ ws') := by
  obtain ⟨w, tail, rfl, hw⟩ := h
  exact ⟨w, tail ++ ws', rfl, hw⟩

theorem Opening.wrapped {ws : List Word} (h : Opening reserved ws) (needed : Bool) :
    Opening reserved (wrapped needed ws) := by
  cases needed with
  | false => exact h
  | true => exact ⟨.sign "(", _, rfl, by decide, fun _ => by decide, nofun⟩

theorem opens_nameWord {ident : String} (h : isMemberWord ident = true ∨
    isIdentWord ident = true ∧ ident ∉ reserved) : (nameWord ident).Opens reserved where
  lexeme := isLexeme_nameWord (h.imp_right And.left)
  sign hkind := absurd hkind (kind_nameWord ident).1
  free hkind := by
    refine .inr (h.resolve_left ?_).2
    intro hmember
    unfold isMemberWord at hmember
    simp [nameWord, hmember] at hkind

theorem opens_literalWord {text : String} (h : isLiteralWord text = true) :
    (literalWord text).Opens reserved where
  lexeme := isLexeme_literalWord h
  sign hkind := absurd hkind (kind_literalWord text).1
  free hkind := by
    left
    unfold isLiteralWord at h
    simp only [literalWord] at hkind ⊢
    split at hkind
    · cases hkind
    split at hkind
    · cases hkind
    rename_i hnumber hstring
    have hvalues : ∀ text ∈ ["true", "false", "null", "undefined"], text ∈ expressionWords := by
      decide
    simp only [hnumber, hstring, Bool.false_or, decide_eq_true_eq] at h
    exact hvalues text h

theorem opens_unaryWord {op : String} (h : op ∈ ["!", "-", "+", "typeof"]) :
    (unaryWord op).Opens reserved := by
  simp only [List.mem_cons, List.not_mem_nil, or_false] at h
  rcases h with rfl | rfl | rfl | rfl
  · exact ⟨by decide, fun _ => by decide, nofun⟩
  · exact ⟨by decide, fun _ => by decide, nofun⟩
  · exact ⟨by decide, fun _ => by decide, nofun⟩
  · exact ⟨by decide, nofun, fun _ => .inl (by decide)⟩

/-- A well-spelled expression begins with a word that can begin one. -/
theorem Expr.opening_words (x : Expr) (hx : x.all (Node.isSpelled reserved) = true)
    (hpresent : x.isAbsent = false) (min : Nat) : Opening reserved (x.words min) := by
  cases x with
  | absent => cases hpresent
  | name ident q =>
    simp only [Expr.all, Node.isSpelled, Bool.and_eq_true, Bool.or_eq_true, Bool.not_eq_true',
      decide_eq_true_eq] at hx
    rw [Expr.words]
    cases hq : q.isAbsent with
    | false =>
      rw [List.append_assoc]
      exact (q.opening_words hx.2 hq powerPostfix).append _
    | true =>
      cases q with
      | absent =>
        refine ⟨nameWord ident, [], rfl, opens_nameWord ?_⟩
        simpa [Expr.isAbsent] using hx.1
      | _ => cases hq
  | call callee =>
    simp only [Expr.all, Node.isSpelled, Bool.and_eq_true, Bool.not_eq_true'] at hx
    rw [Expr.words]
    exact (callee.opening_words hx.1.2 hx.1.1.1 powerPostfix).append _
  | this =>
    rw [Expr.words]
    exact ⟨_, _, rfl, by decide, nofun, fun _ => .inl (by decide)⟩
  | literal =>
    simp only [Expr.all, Node.isSpelled] at hx
    rw [Expr.words]
    exact ⟨_, _, rfl, opens_literalWord hx⟩
  | binary op x =>
    simp only [Expr.all, Node.isSpelled, Bool.and_eq_true, Bool.not_eq_true'] at hx
    rw [Expr.words]
    exact ((x.opening_words hx.1.2 hx.1.1.1.2 _).append _).wrapped _
  | unary =>
    simp only [Expr.all, Node.isSpelled, Bool.and_eq_true, decide_eq_true_eq] at hx
    rw [Expr.words]
    exact Opening.wrapped ⟨_, _, rfl, opens_unaryWord hx.1.1⟩ _
  | func f =>
    obtain ⟨name, params, names, body⟩ := f
    rw [Expr.words, Function.words]
    exact Opening.wrapped ⟨.plain "function", _, rfl, by decide, nofun, fun _ => .inl (by decide)⟩ _

end

end DefaultLowering.Fragment
