import DefaultLowering.Proofs.Acceptance
import DefaultLowering.Proofs.Coverage

/-!
# Spacing does not matter

A source may be written anew with single blanks between its tokens: the same tokens are cut off, and the
same tree is read from them.

- `Word.standsBefore_gap`: every lexeme ends at a blank, whatever the rule by which it ends;
- `lexes_joined`: lexemes with blanks between them are cut into these lexemes;
- `Alike`: readers that are given the same words come to the same, by one lemma for each reader;
- `lex_joined`: a source and its tokens with single blanks between them.
-/

namespace DefaultLowering.Fragment

variable {ts ts' rest rest' : List Token} {stop stop' power : Nat} {text source : String}

/-! ## Section 1: Lexemes with blanks between them -/

/-- Every operator ends at a blank: none of the longer ones has a blank in it. -/
theorem standsBefore_blank :
    ∀ op ∈ operators, ∀ rest, (Word.mk .operator op).StandsBefore (' ' :: rest) := by
  simp only [operators, List.forall_mem_cons, List.not_mem_nil, false_implies, implies_true, and_true]
  and_intros <;> exact fun _ => ⟨_, _, rfl, rfl⟩

section

variable {w : Word} {rest : List Char}

theorem Word.mem_operators (hw : w.isLexeme = true) (hkind : w.kind = .operator) :
    w.text ∈ operators := by
  obtain ⟨c, cs, htext, hextent⟩ := isLexeme_iff.mp hw
  rw [List.append_nil] at hextent
  have hmem := ((isWhole_of_extent 0 hextent).operator hkind).1
  rwa [List.take_length, ← htext, String.ofList_toList] at hmem

theorem Word.standsBefore_gap (hw : w.isLexeme = true) (hrest : ∀ c ∈ rest.head?, c = ' ') :
    w.StandsBefore rest := by
  by_cases hkind : w.kind = .operator
  · cases rest with
    | nil => exact isLexeme_iff.mp hw
    | cons c cs =>
      obtain rfl := hrest c rfl
      have hstands := standsBefore_blank w.text (Word.mem_operators hw hkind) cs
      rwa [← hkind] at hstands
  · have hsoft : Soft rest := fun c hc => by rw [hrest c hc]; decide
    exact Word.standsBefore hw (hsoft.apart hkind)

/-- Each lexeme stands in front of a blank or of what ends the text. -/
theorem lexes_joined {ws : List Word} (hws : ∀ w ∈ ws, w.isLexeme = true)
    (hrest : ∀ c ∈ rest.head?, c = ' ') (h : Lexes rest []) :
    Lexes ((" ".intercalate (ws.map Word.text)).toList ++ rest) ws := by
  -- behind the first one each has a blank in front of it
  have htail : ∀ ws : List Word, (∀ w ∈ ws, w.isLexeme = true) →
      Lexes ((ws.map Word.text).flatMap (fun t => " ".toList ++ t.toList) ++ rest) ws ∧
        ∀ c ∈ ((ws.map Word.text).flatMap (fun t => " ".toList ++ t.toList) ++ rest).head?, c = ' ' := by
    intro ws hws
    induction ws with
    | nil => exact ⟨h, hrest⟩
    | cons w ws ih =>
      obtain ⟨hw, hws⟩ := List.forall_mem_cons.mp hws
      obtain ⟨hlexes, hgap⟩ := ih hws
      rw [List.map_cons, List.flatMap_cons, List.append_assoc, List.append_assoc]
      refine ⟨(Lexes.word (Word.standsBefore_gap hw hgap) hlexes).blank, ?_⟩
      intro c hc
      cases hc
      rfl
  cases ws with
  | nil => exact h
  | cons w ws =>
    obtain ⟨hw, hws⟩ := List.forall_mem_cons.mp hws
    obtain ⟨hlexes, hgap⟩ := htail ws hws
    rw [List.map_cons, toList_intercalate_cons, List.append_assoc]
    exact Lexes.word (Word.standsBefore_gap hw hgap) hlexes

end

namespace TokenStream

/-- The texts of the tokens with single blanks between them. -/
def joined (s : TokenStream) : String := " ".intercalate (s.tokens.map Token.text)

/-- The sorts and the texts of the tokens, without their places. -/
def words (s : TokenStream) : List Word := s.tokens.map Token.word

end TokenStream

/-- The blank that the empty text of the end adds may stand at the end. -/
theorem lex_of_joined {s : TokenStream} (h : lex source = .ok s) {ending : String}
    (hending : ending ∈ ["", " "]) : ∃ s', lex (s.joined ++ ending) = .ok s' ∧ s'.words = s.words := by
  have hlexemes : ∀ w ∈ s.words, w.isLexeme = true := by
    intro w hw
    obtain ⟨t, ht, rfl⟩ := List.mem_map.mp hw
    exact lexFrom_lexemes (lex_eq_ok.mp h).1 t ht
  have hrest : (∀ c ∈ ending.toList.head?, c = ' ') ∧ Lexes ending.toList [] := by
    rcases List.mem_pair.mp hending with rfl | rfl
    · exact ⟨nofun, .nil⟩
    · exact ⟨fun c hc => by cases hc; rfl, Lexes.nil.blank⟩
  obtain ⟨tokens, htokens, hwords⟩ := lexes_joined hlexemes hrest.1 hrest.2 0
  have htext : (s.joined ++ ending).toList =
      (" ".intercalate (s.words.map Word.text)).toList ++ ending.toList := by
    rw [String.toList_append, TokenStream.joined, TokenStream.words, List.map_map]
    rfl
  exact ⟨⟨tokens, _⟩, lex_eq_ok.mpr ⟨by rwa [htext], rfl⟩, hwords⟩

/-! ## Section 2: Tokens with the same words -/

/-- The tokens have the same sorts and texts, one by one. -/
abbrev SameWords : List Token → List Token → Prop := List.Forall₂ fun t t' => t.word = t'.word

/-- Two readings come to the same: the same result and rests with the same words, or errors that differ
    in their places only. -/
inductive Alike {α : Type} {p q : List Token → Prop} :
    Found α p → Found α q → Prop where
  | ok {a rest rest' hrest hrest'} (h : SameWords rest rest') :
      Alike (.ok (a, ⟨rest, hrest⟩)) (.ok (a, ⟨rest', hrest'⟩))
  | refused {e e'} (h : e.cause = e'.cause) : Alike (.error e) (.error e')

section

variable {t t' : Token}

theorem is_of_word (h : t.word = t'.word) : t.is = t'.is := by
  obtain ⟨kind, text, offset⟩ := t
  cases h
  rfl

theorem kind_of_word (h : t.word = t'.word) : t.kind = t'.kind := congrArg Word.kind h

theorem text_of_word (h : t.word = t'.word) : t.text = t'.text := congrArg Word.text h

end

theorem nextIs_alike (text : String) (h : SameWords ts ts') : nextIs text ts = nextIs text ts' := by
  cases h with
  | nil => rfl
  | cons ht => exact congrFun (is_of_word ht) text

theorem accept?_alike (text : String) (h : SameWords ts ts') :
    (accept? text ts = none ∧ accept? text ts' = none) ∨ ∃ r r' hr hr', accept? text ts = some ⟨r, hr⟩ ∧
      accept? text ts' = some ⟨r', hr'⟩ ∧ SameWords r r' := by
  cases h with
  | nil => exact .inl ⟨rfl, rfl⟩
  | @cons t t' tail tail' ht htail =>
    rw [accept?, accept?, is_of_word ht]
    split
    · exact .inr ⟨tail, tail', Nat.lt_succ_self _, Nat.lt_succ_self _, rfl, rfl, htail⟩
    · exact .inl ⟨rfl, rfl⟩

theorem optionalEnd_alike (h : SameWords ts ts') :
    SameWords (optionalEnd ts).1 (optionalEnd ts').1 := by
  unfold optionalEnd
  rcases accept?_alike ";" h with ⟨hr, hr'⟩ | ⟨r, r', _, _, hr, hr', hrest⟩
  · rwa [hr, hr']
  · rwa [hr, hr']

theorem isEmpty_alike (h : SameWords ts ts') : ts.isEmpty = ts'.isEmpty := by
  cases h <;> rfl

theorem tail_alike (h : SameWords ts ts') : SameWords ts.tail ts'.tail := by
  cases h with
  | nil => exact .nil
  | cons _ htail => exact htail

namespace Alike

variable {α β : Type} {p q p' q' : List Token → Prop}

theorem bind {r : Found β p} {r' : Found β q}
    {f : β × { rest : List Token // p rest } → Found α p'}
    {f' : β × { rest : List Token // q rest } → Found α q'} (hr : Alike r r')
    (hf : ∀ b rest rest' hrest hrest', SameWords rest rest' →
      Alike (f (b, ⟨rest, hrest⟩)) (f' (b, ⟨rest', hrest'⟩))) :
    Alike (r >>= f) (r' >>= f') := by
  cases hr with
  | ok h => exact hf _ _ _ _ _ h
  | refused h => exact .refused h

theorem expect {f : Rest ts → Found α p} {f' : Rest ts' → Found α q}
    (h : SameWords ts ts') (hf : ∀ rest rest' hrest hrest', SameWords rest rest' →
      Alike (f ⟨rest, hrest⟩) (f' ⟨rest', hrest'⟩)) :
    Alike (Fragment.expect stop text ts >>= f) (Fragment.expect stop' text ts' >>= f') := by
  cases h with
  | nil => exact .refused rfl
  | @cons t t' tail tail' ht htail =>
    rw [Fragment.expect, Fragment.expect, is_of_word ht, text_of_word ht]
    split
    · exact hf _ _ _ _ htail
    · exact .refused rfl

theorem token (kinds : List TokenKind) (cause : String → SyntaxCause) (h : SameWords ts ts') :
    Alike (tokenOf stop kinds cause ts) (tokenOf stop' kinds cause ts') := by
  cases h with
  | nil => exact .refused rfl
  | @cons t t' tail tail' ht htail =>
    rw [tokenOf, tokenOf, kind_of_word ht, text_of_word ht]
    split
    · exact .ok htail
    · exact .refused rfl

end Alike

/-! ## Section 3: Readers see words only -/

section

variable {stop stop' : Nat}

theorem readParams_alike {ts ts' : List Token} (h : SameWords ts ts') :
    Alike (readParams stop ts) (readParams stop' ts') := by
  rw [readParams, readParams]
  rcases accept?_alike ")" h with ⟨hr, hr'⟩ | ⟨r, r', _, _, hr, hr', hrest⟩
  · simp only [hr, hr']
    refine (Alike.token _ _ h).bind fun name r1 r1' _ _ h1 => ?_
    dsimp only
    rw [nextIs_alike ")" h1]
    split
    · exact (readParams_alike h1).bind fun _ _ _ _ _ h2 => .ok h2
    · exact .expect h1 fun r2 r2' _ _ h2 => (readParams_alike h2).bind fun _ _ _ _ _ h3 => .ok h3
  · simp only [hr, hr']
    exact .ok hrest
  termination_by ts.length

mutual

theorem readStmts_alike {closer : Option String} {ts ts' : List Token} (h : SameWords ts ts') :
    Alike (readStmts stop closer ts) (readStmts stop' closer ts') := by
  cases h with
  | nil =>
    rw [readStmts, readStmts]
    split
    · exact .ok .nil
    · exact .refused rfl
  | @cons t t' tail tail' ht htail =>
    rw [readStmts, readStmts, kind_of_word ht, text_of_word ht]
    split
    · exact .ok (.cons ht htail)
    refine (readStmt_alike (.cons ht htail)).bind fun s r1 r1' _ _ h1 => ?_
    refine (readStmts_alike h1).bind fun ss r2 r2' _ _ h2 => ?_
    cases s <;> exact .ok h2
  termination_by 10 * ts.length + 9
  decreasing_by all_goals (simp only [List.length_cons] at *; omega)

theorem readStmt_alike {ts ts' : List Token} (h : SameWords ts ts') :
    Alike (readStmt stop ts) (readStmt stop' ts') := by
  cases h with
  | nil =>
    rw [readStmt, readStmt]
    exact .refused rfl
  | @cons t t' tail tail' ht htail =>
    rw [readStmt, readStmt, is_of_word ht]
    split
    · exact .ok htail
    split
    · exact (readBlock_alike (.cons ht htail)).bind fun _ _ _ _ _ h1 => .ok h1
    split
    · exact (readDecls_alike htail).bind fun _ _ _ _ _ h1 => .ok (optionalEnd_alike h1)
    split
    · rw [nextIs_alike ";" htail, nextIs_alike "\x7d" htail, isEmpty_alike htail]
      split
      · exact .ok (optionalEnd_alike htail)
      · exact (readAssign_alike htail).bind fun _ _ _ _ _ h1 => .ok (optionalEnd_alike h1)
    split
    · refine .expect htail fun r1 r1' _ _ h1 => ?_
      refine (readAssign_alike h1).bind fun test r2 r2' _ _ h2 => .expect h2 fun r3 r3' _ _ h3 => ?_
      refine (readStmt_alike h3).bind fun yes r4 r4' _ _ h4 => ?_
      rcases accept?_alike "else" h4 with ⟨hr, hr'⟩ | ⟨r5, r5', _, _, hr, hr', h5⟩
      · simp only [hr, hr']
        exact .ok h4
      · simp only [hr, hr']
        exact (readStmt_alike h5).bind fun _ _ _ _ _ h6 => .ok h6
    · exact (readAssign_alike (.cons ht htail)).bind fun _ _ _ _ _ h1 => .ok (optionalEnd_alike h1)
  termination_by 10 * ts.length + 8
  decreasing_by all_goals (try simp only [List.length_cons] at *); all_goals omega

theorem readBlock_alike {ts ts' : List Token} (h : SameWords ts ts') :
    Alike (readBlock stop ts) (readBlock stop' ts') := by
  rw [readBlock, readBlock]
  exact .expect h fun r1 r1' _ _ h1 => (readStmts_alike h1).bind fun _ _ _ _ _ h2 => .ok (tail_alike h2)
  termination_by 10 * ts.length + 7

theorem readDecls_alike {ts ts' : List Token} (h : SameWords ts ts') :
    Alike (readDecls stop ts) (readDecls stop' ts') := by
  rw [readDecls, readDecls]
  refine (Alike.token _ _ h).bind fun name r1 r1' _ _ h1 => ?_
  refine (readInit_alike h1).bind fun init r2 r2' _ _ h2 => ?_
  rcases accept?_alike "," h2 with ⟨hr, hr'⟩ | ⟨r3, r3', _, _, hr, hr', h3⟩
  · simp only [hr, hr']
    exact .ok h2
  · simp only [hr, hr']
    exact (readDecls_alike h3).bind fun _ _ _ _ _ h4 => .ok h4
  termination_by 10 * ts.length

theorem readInit_alike {ts ts' : List Token} (h : SameWords ts ts') :
    Alike (readInit stop ts) (readInit stop' ts') := by
  rw [readInit, readInit]
  rcases accept?_alike "=" h with ⟨hr, hr'⟩ | ⟨r1, r1', _, _, hr, hr', h1⟩
  · simp only [hr, hr']
    exact .ok h
  · simp only [hr, hr']
    exact (readAssign_alike h1).bind fun _ _ _ _ _ h2 => .ok h2
  termination_by 10 * ts.length

theorem readAssign_alike {ts ts' : List Token} (h : SameWords ts ts') :
    Alike (readAssign stop ts) (readAssign stop' ts') := by
  rw [readAssign, readAssign]
  refine (readBinary_alike h).bind fun x r1 r1' _ _ h1 => ?_
  rcases accept?_alike "=" h1 with ⟨hr, hr'⟩ | ⟨r2, r2', _, _, hr, hr', h2⟩
  · simp only [hr, hr']
    exact .ok h1
  · simp only [hr, hr']
    exact (readAssign_alike h2).bind fun _ _ _ _ _ h3 => .ok h3
  termination_by 10 * ts.length + 6

theorem readBinary_alike {power : Nat} {ts ts' : List Token} (h : SameWords ts ts') :
    Alike (readBinary stop power ts) (readBinary stop' power ts') := by
  rw [readBinary, readBinary]
  exact (readUnary_alike h).bind fun _ _ _ _ _ h1 =>
    (readOperators_alike h1).bind fun _ _ _ _ _ h2 => .ok h2
  termination_by 10 * ts.length + 5

theorem readOperators_alike {power : Nat} {x : Expr} {ts ts' : List Token} (h : SameWords ts ts') :
    Alike (readOperators stop power x ts) (readOperators stop' power x ts') := by
  cases h with
  | nil =>
    rw [readOperators, readOperators]
    exact .ok .nil
  | @cons t t' tail tail' ht htail =>
    rw [readOperators, readOperators, kind_of_word ht, text_of_word ht]
    cases binaryPower t'.text with
    | none => exact .ok (.cons ht htail)
    | some =>
      dsimp only
      split
      · exact (readBinary_alike htail).bind fun _ _ _ _ _ h1 =>
          (readOperators_alike h1).bind fun _ _ _ _ _ h2 => .ok h2
      · exact .ok (.cons ht htail)
  termination_by 10 * ts.length
  decreasing_by all_goals (try simp only [List.length_cons] at *); all_goals omega

theorem readUnary_alike {ts ts' : List Token} (h : SameWords ts ts') :
    Alike (readUnary stop ts) (readUnary stop' ts') := by
  cases h with
  | nil =>
    rw [readUnary, readUnary]
    exact .refused rfl
  | @cons t t' tail tail' ht htail =>
    rw [readUnary, readUnary, kind_of_word ht, text_of_word ht]
    split
    · exact (readUnary_alike htail).bind fun _ _ _ _ _ h1 => .ok h1
    · exact (readPrimary_alike (.cons ht htail)).bind fun _ _ _ _ _ h1 =>
        (readPostfix_alike h1).bind fun _ _ _ _ _ h2 => .ok h2
  termination_by 10 * ts.length + 4
  decreasing_by all_goals (try simp only [List.length_cons] at *); all_goals omega

theorem readPostfix_alike {x : Expr} {ts ts' : List Token} (h : SameWords ts ts') :
    Alike (readPostfix stop x ts) (readPostfix stop' x ts') := by
  rw [readPostfix, readPostfix]
  rcases accept?_alike "." h with ⟨hr, hr'⟩ | ⟨r1, r1', _, _, hr, hr', h1⟩
  · simp only [hr, hr']
    rcases accept?_alike "(" h with ⟨hr, hr'⟩ | ⟨r1, r1', _, _, hr, hr', h1⟩
    · simp only [hr, hr']
      exact .ok h
    · simp only [hr, hr']
      exact (readArgs_alike h1).bind fun _ _ _ _ _ h2 =>
        (readPostfix_alike h2).bind fun _ _ _ _ _ h3 => .ok h3
  · simp only [hr, hr']
    exact (Alike.token _ _ h1).bind fun _ _ _ _ _ h2 =>
      (readPostfix_alike h2).bind fun _ _ _ _ _ h3 => .ok h3
  termination_by 10 * ts.length

theorem readArgs_alike {ts ts' : List Token} (h : SameWords ts ts') :
    Alike (readArgs stop ts) (readArgs stop' ts') := by
  rw [readArgs, readArgs]
  rcases accept?_alike ")" h with ⟨hr, hr'⟩ | ⟨r1, r1', _, _, hr, hr', h1⟩
  · simp only [hr, hr']
    exact readArgList_alike h
  · simp only [hr, hr']
    exact .ok h1
  termination_by 10 * ts.length + 8

theorem readArgList_alike {ts ts' : List Token} (h : SameWords ts ts') :
    Alike (readArgList stop ts) (readArgList stop' ts') := by
  rw [readArgList, readArgList]
  refine (readAssign_alike h).bind fun x r1 r1' _ _ h1 => ?_
  rcases accept?_alike ")" h1 with ⟨hr, hr'⟩ | ⟨r2, r2', _, _, hr, hr', h2⟩
  · simp only [hr, hr']
    exact .expect h1 fun r2 r2' _ _ h2 => (readArgList_alike h2).bind fun _ _ _ _ _ h3 => .ok h3
  · simp only [hr, hr']
    exact .ok h2
  termination_by 10 * ts.length + 7

theorem readPrimary_alike {ts ts' : List Token} (h : SameWords ts ts') :
    Alike (readPrimary stop ts) (readPrimary stop' ts') := by
  cases h with
  | nil =>
    rw [readPrimary, readPrimary]
    exact .refused rfl
  | @cons t t' tail tail' ht htail =>
    rw [readPrimary, readPrimary, kind_of_word ht, text_of_word ht]
    cases t'.kind with
    | number | string | member => exact .ok htail
    | ident =>
      dsimp only
      split
      · exact .ok htail
      split
      · exact .ok htail
      split
      · exact (readFunction_alike htail).bind fun _ _ _ _ _ h1 => .ok h1
      · exact .ok htail
    | operator =>
      dsimp only
      split
      · exact (readAssign_alike htail).bind fun _ _ _ _ _ h1 => .expect h1 fun _ _ _ _ h2 => .ok h2
      · exact .refused rfl
  termination_by 10 * ts.length + 3
  decreasing_by all_goals (try simp only [List.length_cons] at *); all_goals omega

theorem readFunction_alike {ts ts' : List Token} (h : SameWords ts ts') :
    Alike (readFunction stop ts) (readFunction stop' ts') := by
  rw [readFunction, readFunction]
  have hname : Alike (tokenOf stop [.ident] .unexpected ts) (tokenOf stop' [.ident] .unexpected ts') :=
    .token _ _ h
  generalize tokenOf stop [.ident] .unexpected ts = r at hname ⊢
  generalize tokenOf stop' [.ident] .unexpected ts' = r' at hname ⊢
  cases hname with
  | refused =>
    exact .expect h fun r1 r1' _ _ h1 => (readParams_alike h1).bind fun _ _ _ _ _ h2 =>
      (readBlock_alike h2).bind fun _ _ _ _ _ h3 => .ok h3
  | ok h0 =>
    exact .expect h0 fun r1 r1' _ _ h1 => (readParams_alike h1).bind fun _ _ _ _ _ h2 =>
      (readBlock_alike h2).bind fun _ _ _ _ _ h3 => .ok h3
  termination_by 10 * ts.length

end

end

/-! ## Section 4: Sources -/

theorem parse_alike {source source' : String} {s s' : TokenStream} (h : lex source = .ok s)
    (h' : lex source' = .ok s') (hwords : s.words = s'.words) (params : List String) (chain : Chain) :
    (parse source params chain).mapError SyntaxError.cause =
      (parse source' params chain).mapError SyntaxError.cause := by
  have hsame : SameWords s.tokens s'.tokens := by
    have heq : List.Forall₂ Eq (s.tokens.map Token.word) (s'.tokens.map Token.word) := by
      rw [List.forall₂_eq_eq_eq]
      exact hwords
    exact List.forall₂_map_right_iff.mp (List.forall₂_map_left_iff.mp heq)
  have hread : Alike (readStmts s.stop none s.tokens) (readStmts s'.stop none s'.tokens) :=
    readStmts_alike hsame
  rw [parse_of_lex h, parse_of_lex h']
  generalize readStmts s.stop none s.tokens = r at hread ⊢
  generalize readStmts s'.stop none s'.tokens = r' at hread ⊢
  cases hread with
  | ok => rfl
  | refused hcause => exact congrArg Except.error hcause

/-- The texts of the tokens of a source with single blanks between them, and with or without one behind
    them for the empty text of the end, are cut into the same tokens.  Two sources for which these texts
    are the same are read as the same tree, or both are refused for the same cause. -/
theorem lex_joined {source : String} {s : TokenStream} (h : lex source = .ok s) :
    (∀ ending ∈ ["", " "], ∃ s', lex (s.joined ++ ending) = .ok s' ∧ s'.words = s.words) ∧
      ∀ source' s', lex source' = .ok s' → s'.joined = s.joined → ∀ params chain,
        (parse source' params chain).mapError SyntaxError.cause =
          (parse source params chain).mapError SyntaxError.cause := by
  refine ⟨fun ending => lex_of_joined h, ?_⟩
  intro source' s' h' hjoined params chain
  obtain ⟨s₁, hs₁, hwords₁⟩ := lex_of_joined h (List.mem_cons_self ..)
  obtain ⟨s₂, hs₂, hwords₂⟩ := lex_of_joined h' (List.mem_cons_self ..)
  rw [hjoined, hs₁] at hs₂
  cases hs₂
  exact parse_alike h' h (hwords₂.symm.trans hwords₁) params chain

/-- A bracket that would belong to the reference in front of it without the blank, and a dot that would
    belong to the number; comments and a line end in other places. -/
theorem lex_joined_example :
    let source := "@T::m (1 .a, typeof/*=*/b)//c"
    let source' := "@T::m\n( 1/**/.a,typeof b )"
    ∃ s s', lex source = .ok s ∧ lex source' = .ok s' ∧ s.joined = "@T::m ( 1 . a , typeof b )" ∧
      s'.joined = s.joined ∧ (∃ s'', lex s.joined = .ok s'' ∧ s''.words = s.words) ∧
      (parse source [] .empty).isOk = true ∧
      (parse source' [] .empty).mapError SyntaxError.cause =
        (parse source [] .empty).mapError SyntaxError.cause := by
  intro source source'
  have hs : (lex source).toOption.map TokenStream.joined = some "@T::m ( 1 . a , typeof b )" := by
    decide +kernel
  have hs' : (lex source').toOption.map TokenStream.joined = some "@T::m ( 1 . a , typeof b )" := by
    decide +kernel
  have hok : (parse source [] .empty).isOk = true := by decide +kernel
  cases hlex : lex source with
  | error => rw [hlex] at hs; cases hs
  | ok s =>
    cases hlex' : lex source' with
    | error => rw [hlex'] at hs'; cases hs'
    | ok s' =>
      rw [hlex] at hs
      rw [hlex'] at hs'
      have hjoined := Option.some.inj hs
      have hjoined' := (Option.some.inj hs').trans hjoined.symm
      obtain ⟨hcut, hread⟩ := lex_joined hlex
      refine ⟨s, s', rfl, rfl, hjoined, hjoined', ?_, hok, hread source' s' hlex' hjoined' [] .empty⟩
      simpa using hcut "" (List.mem_cons_self ..)

end DefaultLowering.Fragment
