import DefaultLowering.Fragment.Lexer
import DefaultLowering.Fragment.Tree
import Mathlib.Data.List.TakeWhile

/-!
# Lexemes

A word is a token without its place.  A fragment is cut into its words in the same way wherever they
stand, as long as what follows a word does not go on with it.

- `Word.isLexeme`: the text of the word is one lexeme of its kind;
- `Word.Apart`: what follows does not go on with the word;
- `Lexes`: a text is cut into given words, and the rules by which this is shown word by word;
- `lexFrom_lexemes`: every word that is cut off is a lexeme.
-/

namespace DefaultLowering.Fragment

variable {w : Word} {n offset : Nat} {cs rest : List Char} {kind : TokenKind} {p : Char → Bool}
  {quote c : Char} {ts : List Token}

/-! ## Section 1: Words -/

/-- A token without its place. -/
structure Word where
  kind : TokenKind
  text : String
  deriving DecidableEq, Repr, Inhabited

/-- The word that a token is. -/
def Token.word (t : Token) : Word := ⟨t.kind, t.text⟩

namespace Word

/-- The text of the word is one lexeme of its kind. -/
def isLexeme (w : Word) : Bool :=
  match w.text.toList with
  | [] => false
  | c :: cs =>
    match extent c cs with
    | .ok e => e == ⟨some w.kind, cs.length⟩
    | .error _ => false

/-- The word is cut off as it is in front of `rest`. -/
def StandsBefore (w : Word) (rest : List Char) : Prop :=
  ∃ c cs, w.text.toList = c :: cs ∧ extent c (cs ++ rest) = .ok ⟨some w.kind, cs.length⟩

/-- What follows does not go on with the word, which is no operator. -/
def Apart (w : Word) (rest : List Char) : Prop :=
  match w.kind with
  | .ident => ∀ c ∈ rest.head?, continuesIdent c = false
  | .member =>
    isMethodIdent w.text = true ∨ ∀ c ∈ rest.head?, continuesIdent c = false ∧ c ≠ '('
  | .number => ∀ c ∈ rest.head?, isNumberPart c = false
  | .string => True
  | .operator => False

theorem isLexeme_iff : w.isLexeme = true ↔ w.StandsBefore [] := by
  unfold isLexeme StandsBefore
  cases htext : w.text.toList with
  | nil => simp
  | cons c cs =>
    simp only [List.cons.injEq, List.append_nil]
    constructor
    · intro h
      split at h
      · rename_i e hextent
        exact ⟨c, cs, ⟨rfl, rfl⟩, hextent.trans (congrArg _ (beq_iff_eq.mp h))⟩
      · cases h
    · rintro ⟨_, _, ⟨rfl, rfl⟩, hextent⟩
      simp [hextent]

end Word

/-! ## Section 2: Lexemes by their first character -/

section

variable {c : Char}

theorem isBlank_eq_false (h : startsIdent c = true ∨ isDigit c = true) : isBlank c = false := by
  cases hblank : isBlank c with
  | false => rfl
  | true =>
    simp only [isBlank, Bool.or_eq_true, beq_iff_eq] at hblank
    rcases hblank with ((rfl | rfl) | rfl) | rfl <;> revert h <;> decide

theorem ne_slash (h : startsIdent c = true ∨ isDigit c = true) : c ≠ '/' := by
  rintro rfl
  revert h
  decide

theorem startsIdent_of_isDigit (h : isDigit c = true) : startsIdent c = false := by
  simp only [isDigit, Bool.and_eq_true, decide_eq_true_eq, Char.le_def,
    UInt32.le_iff_toNat_le] at h
  simp only [startsIdent, Bool.or_eq_false_iff, beq_eq_false_iff_ne, Bool.and_eq_false_iff,
    decide_eq_false_iff_not, Char.le_def, UInt32.le_iff_toNat_le, ne_eq]
  have h9 : ('9' : Char).val.toNat = 57 := rfl
  have ha : ('a' : Char).val.toNat = 97 := rfl
  have hA : ('A' : Char).val.toNat = 65 := rfl
  refine ⟨⟨⟨?_, ?_⟩, ?_⟩, ?_⟩
  · rintro rfl
    revert h
    decide
  · rintro rfl
    revert h
    decide
  · left
    omega
  · left
    omega

theorem extent_ident (h : startsIdent c = true) (cs : List Char) :
    extent c cs = .ok ⟨some .ident, (cs.takeWhile continuesIdent).length⟩ := by
  simp [extent, isBlank_eq_false (.inl h), ne_slash (.inl h), h]

theorem extent_number (h : isDigit c = true) (cs : List Char) :
    extent c cs = .ok ⟨some .number, (cs.takeWhile isNumberPart).length⟩ := by
  have hat : c ≠ '@' := by
    rintro rfl
    revert h
    decide
  simp [extent, isBlank_eq_false (.inr h), ne_slash (.inr h), startsIdent_of_isDigit h, hat, h]

theorem extent_string (h : c = '"' ∨ c = '\x27') (hend : stringEnd c cs = some n) :
    extent c cs = .ok ⟨some .string, n⟩ := by
  rcases h with rfl | rfl
  · simp [extent, isBlank, startsIdent, isDigit, hend]
  · simp [extent, isBlank, startsIdent, isDigit, hend]

/-- The sorts of lexeme that leave a word. -/
theorem extent_eq_some (h : extent c cs = .ok ⟨some kind, n⟩) :
    (startsIdent c = true ∧ kind = .ident ∧ n = (cs.takeWhile continuesIdent).length) ∨
      (c = '@' ∧ memberExtent cs = .ok ⟨some kind, n⟩) ∨
      (isDigit c = true ∧ kind = .number ∧ n = (cs.takeWhile isNumberPart).length) ∨
      ((c = '"' ∨ c = '\x27') ∧ kind = .string ∧ stringEnd c cs = some n) ∨
      (kind = .operator ∧ ∃ op, operatorAt (c :: cs) = some op ∧ n = op.length - 1) := by
  unfold extent at h
  -- blanks and comments leave no word
  split at h
  · cases h
  split at h
  · cases h
  split at h
  · split at h <;> cases h
  split at h
  · rename_i hstarts
    cases h
    exact .inl ⟨hstarts, rfl, rfl⟩
  split at h
  · rename_i hat
    exact .inr (.inl ⟨hat, h⟩)
  split at h
  · rename_i hdigit
    cases h
    exact .inr (.inr (.inl ⟨hdigit, rfl, rfl⟩))
  split at h
  · rename_i hquote
    split at h
    · cases h
    · rename_i m hend
      cases h
      exact .inr (.inr (.inr (.inl ⟨hquote, rfl, hend⟩)))
  · split at h
    · cases h
    · rename_i op hop
      cases h
      exact .inr (.inr (.inr (.inr ⟨rfl, op, hop, rfl⟩)))

end

/-! ## Section 3: Where strings and signatures end

What has been taken is taken again, whatever follows it. -/

/-- A run of characters ends where the next one is not of its kind. -/
theorem takeWhile_append_rest (hcs : cs.all p = true) (hrest : ∀ c ∈ rest.head?, p c = false) :
    (cs ++ rest).takeWhile p = cs := by
  rw [List.takeWhile_append_of_pos (List.all_eq_true.mp hcs)]
  cases rest with
  | nil => simp
  | cons d =>
    rw [List.takeWhile_cons_of_neg, List.append_nil]
    simpa using hrest d rfl

theorem take_length_takeWhile (cs : List Char) :
    cs.take (cs.takeWhile p).length = cs.takeWhile p :=
  (List.prefix_iff_eq_take.mp (List.takeWhile_prefix p)).symm

theorem takeWhile_take_append (hrest : ∀ c ∈ rest.head?, p c = false) :
    (cs.take (cs.takeWhile p).length ++ rest).takeWhile p = cs.takeWhile p := by
  rw [take_length_takeWhile]
  exact takeWhile_append_rest List.all_takeWhile hrest

/-- Behind a run stands nothing that goes on with it. -/
theorem head?_drop_takeWhile (cs : List Char) :
    ∀ c ∈ (cs.drop (cs.takeWhile p).length).head?, p c = false := by
  intro c hc
  have hdrop : cs.drop (cs.takeWhile p).length = cs.dropWhile p := by
    conv => lhs; arg 2; rw [← List.takeWhile_append_dropWhile (p := p) (l := cs)]
    exact List.drop_left
  have hnot := List.head?_dropWhile_not p cs
  rw [← hdrop, hc] at hnot
  simpa using hnot

theorem stringEnd_quote (quote : Char) (cs : List Char) :
    stringEnd quote (quote :: cs) = some 1 := by
  rw [stringEnd.eq_def]
  simp

theorem stringEnd_escape (h : '\\' ≠ quote) (c : Char) (cs : List Char) :
    stringEnd quote ('\\' :: c :: cs) = (stringEnd quote cs).map (· + 2) := by
  rw [stringEnd.eq_def]
  simp [h]

theorem stringEnd_cons (h : c ≠ quote) (h' : c ≠ '\\') (cs : List Char) :
    stringEnd quote (c :: cs) = (stringEnd quote cs).map (· + 1) := by
  rw [stringEnd.eq_def]
  simp [h, h']

theorem stringEnd_take_append (h : stringEnd quote cs = some n) (rest : List Char) :
    n ≤ cs.length ∧ stringEnd quote (cs.take n ++ rest) = some n := by
  fun_induction stringEnd quote cs generalizing n with
  | case1 => cases h
  | case2 =>
    cases h
    exact ⟨Nat.succ_le_succ (Nat.zero_le _), stringEnd_quote quote rest⟩
  | case3 => cases h
  | case4 c cs hquote ih =>
    obtain ⟨m, hm, rfl⟩ := Option.map_eq_some_iff.mp h
    obtain ⟨hle, hend⟩ := ih hm
    refine ⟨Nat.add_le_add_right hle 2, ?_⟩
    rw [List.take_succ_cons, List.take_succ_cons, List.cons_append, List.cons_append,
      stringEnd_escape hquote, hend, Option.map_some]
  | case5 c cs hquote hescape ih =>
    obtain ⟨m, hm, rfl⟩ := Option.map_eq_some_iff.mp h
    obtain ⟨hle, hend⟩ := ih hm
    refine ⟨Nat.succ_le_succ hle, ?_⟩
    rw [List.take_succ_cons, List.cons_append, stringEnd_cons hquote hescape, hend,
      Option.map_some]

theorem signatureEnd_take_append (h : signatureEnd cs = some n) (rest : List Char) :
    n ≤ cs.length ∧ signatureEnd (cs.take n ++ rest) = some n := by
  induction cs generalizing n with
  | nil => cases h
  | cons c cs ih =>
    rw [signatureEnd] at h
    split at h
    · rename_i hc
      cases h
      simp [signatureEnd, hc]
    · rename_i hc
      obtain ⟨m, hm, rfl⟩ := Option.map_eq_some_iff.mp h
      obtain ⟨hle, hend⟩ := ih hm
      exact ⟨Nat.succ_le_succ hle, by simp [signatureEnd, hc, hend]⟩

/-! ## Section 4: Member references -/

theorem separatorIndex_append {type : List Char} (h : ':' ∉ type) (rest : List Char) :
    separatorIndex (type ++ ':' :: ':' :: rest) = some type.length := by
  induction type with
  | nil => rfl
  | cons c type ih =>
    rw [List.mem_cons, not_or] at h
    rw [List.cons_append, separatorIndex, ih h.2]
    · rfl
    · rintro cs rfl
      exact absurd rfl h.1

theorem separatorIndex_eq_some {k : Nat} (h : separatorIndex cs = some k) :
    ∃ rest, cs = cs.take k ++ ':' :: ':' :: rest ∧ (cs.take k).length = k := by
  fun_induction separatorIndex cs generalizing k with
  | case1 cs =>
    cases h
    exact ⟨cs, rfl, rfl⟩
  | case2 c cs hnot ih =>
    obtain ⟨m, hm, rfl⟩ := Option.map_eq_some_iff.mp h
    obtain ⟨rest, hrest, hlength⟩ := ih hm
    refine ⟨rest, ?_, ?_⟩
    · rw [List.take_succ_cons, List.cons_append, ← hrest]
    · rw [List.take_succ_cons, List.length_cons, hlength]
  | case3 => cases h

/-- The parts of a text that begins with a member reference, behind its `@`: the type, the name, and
    what comes behind the name. -/
structure MemberParts (cs type name rest : List Char) : Prop where
  text : cs = type ++ ':' :: ':' :: (name ++ rest)
  type_ne : type ≠ []
  type_all : type.all isTypePart = true
  name_ne : name ≠ []
  name_all : name.all continuesIdent = true
  /-- The name ends where `rest` starts. -/
  name_end : ∀ c ∈ rest.head?, continuesIdent c = false

namespace MemberParts

variable {cs type name rest : List Char} (h : MemberParts cs type name rest)

include h

theorem separatorIndex_eq : separatorIndex cs = some type.length := by
  have hcolon : ':' ∉ type := by
    intro hmem
    have hpart := List.all_eq_true.mp h.type_all ':' hmem
    revert hpart
    decide
  rw [h.text, separatorIndex_append hcolon]

theorem drop_type : cs.drop (type.length + 2) = name ++ rest := by
  rw [h.text]
  simp

theorem drop_name : cs.drop (type.length + 2 + name.length) = rest := by
  rw [← List.drop_drop, h.drop_type, List.drop_left]

theorem takeWhile_name : (cs.drop (type.length + 2)).takeWhile continuesIdent = name := by
  rw [h.drop_type]
  exact takeWhile_append_rest h.name_all h.name_end

theorem take_type : cs.take type.length = type := by
  rw [h.text, List.take_left]

/-- A reference without signature ends behind its name. -/
theorem memberExtent_plain (hrest : rest.head? ≠ some '(') :
    memberExtent cs = .ok ⟨some .member, type.length + 2 + name.length⟩ := by
  unfold memberExtent
  simp only [h.separatorIndex_eq, List.length_eq_zero_iff, h.type_ne, if_false, h.take_type,
    h.type_all, not_true_eq_false, h.takeWhile_name, List.isEmpty_iff, h.name_ne, h.drop_name]
  split
  · simp at hrest
  · rfl

omit h in
theorem memberExtent_signature {signature : List Char}
    (h : MemberParts cs type name ('(' :: signature)) (hend : signatureEnd signature = some n) :
    memberExtent cs = .ok ⟨some .member, type.length + 2 + name.length + 1 + n⟩ := by
  unfold memberExtent
  simp only [h.separatorIndex_eq, List.length_eq_zero_iff, h.type_ne, if_false, h.take_type,
    h.type_all, not_true_eq_false, h.takeWhile_name, List.isEmpty_iff, h.name_ne, h.drop_name, hend]

/-- The name of a reference does not end in a parenthesis. -/
theorem isMethodIdent_plain :
    isMethodIdent (String.ofList ('@' :: (type ++ ':' :: ':' :: name))) = false := by
  have hlast : ('@' :: (type ++ ':' :: ':' :: name)).getLast? = name.getLast? := by
    rw [← List.cons_append, List.append_cons, List.append_cons, List.getLast?_append]
    rw [Option.or_of_isSome (List.getLast?_isSome.mpr h.name_ne)]
  rw [isMethodIdent, String.toList_ofList, hlast, beq_eq_false_iff_ne]
  intro hparen
  have hpart := List.all_eq_true.mp h.name_all ')' (List.mem_of_getLast? hparen)
  revert hpart
  decide

end MemberParts

/-- A text with a separator behind a type and in front of a name has the parts of a reference. -/
theorem MemberParts.of_separatorIndex {k : Nat} (hk : separatorIndex cs = some k) (hpos : k ≠ 0)
    (htype : (cs.take k).all isTypePart = true)
    (hname : (cs.drop (k + 2)).takeWhile continuesIdent ≠ []) :
    (cs.take k).length = k ∧
      MemberParts cs (cs.take k) ((cs.drop (k + 2)).takeWhile continuesIdent)
        ((cs.drop (k + 2)).dropWhile continuesIdent) := by
  obtain ⟨tail, htext, hlength⟩ := separatorIndex_eq_some hk
  have htail : cs.drop (k + 2) = tail := by
    have hdrop := congrArg (List.drop (k + 2)) htext
    rw [hdrop]
    simp [← List.drop_drop, List.drop_append, hlength]
  refine ⟨hlength, ?_, ?_, htype, hname, List.all_takeWhile, ?_⟩
  · rw [htail, List.takeWhile_append_dropWhile]
    exact htext
  · intro hnil
    rw [hnil] at hlength
    exact hpos hlength.symm
  · intro c hc
    have := List.head?_dropWhile_not continuesIdent (cs.drop (k + 2))
    rw [hc] at this
    simpa using this

/-- A text that is accepted has the parts of a reference. -/
theorem memberExtent_ok {e : Extent} (h : memberExtent cs = .ok e) :
    ∃ type name rest, MemberParts cs type name rest ∧
      ((rest.head? ≠ some '(' ∧ e = ⟨some .member, type.length + 2 + name.length⟩) ∨
        ∃ signature n, rest = '(' :: signature ∧ signatureEnd signature = some n ∧
          e = ⟨some .member, type.length + 2 + name.length + 1 + n⟩) := by
  unfold memberExtent at h
  split at h
  · cases h
  rename_i k hk
  split at h
  · cases h
  rename_i hpos
  split at h
  · cases h
  rename_i htype
  simp only at h
  split at h
  · cases h
  rename_i hname
  obtain ⟨hlength, hparts⟩ := MemberParts.of_separatorIndex hk hpos (by simpa using htype)
    (by simpa using hname)
  refine ⟨_, _, _, hparts, ?_⟩
  rw [hlength]
  have hdrop := hparts.drop_name
  rw [hlength] at hdrop
  rw [hdrop] at h
  split at h
  · rename_i signature hrest
    split at h
    · cases h
    · rename_i n hend
      cases h
      exact .inr ⟨signature, n, hrest, hend, rfl⟩
  · rename_i hrest
    cases h
    refine .inl ⟨?_, rfl⟩
    intro hhead
    obtain ⟨signature, hsignature⟩ := List.head?_eq_some_iff.mp hhead
    exact hrest signature hsignature

theorem kind_of_memberExtent {e : Extent} (h : memberExtent cs = .ok e) :
    e.kind = some .member := by
  obtain ⟨_, _, _, -, ⟨-, rfl⟩ | ⟨_, _, -, -, rfl⟩⟩ := memberExtent_ok h
  · rfl
  · rfl

/-- A reference that has been taken is taken again. -/
theorem memberExtent_take_append (h : memberExtent cs = .ok ⟨some kind, n⟩)
    (hrest : Word.Apart ⟨kind, String.ofList ('@' :: cs.take n)⟩ rest) :
    n ≤ cs.length ∧ memberExtent (cs.take n ++ rest) = .ok ⟨some kind, n⟩ := by
  obtain ⟨type, name, tail, hparts, hcase⟩ := memberExtent_ok h
  -- the text in front of what comes behind the name
  have hfront : cs = (type ++ ':' :: ':' :: name) ++ tail := by
    rw [hparts.text]
    simp
  have hlength : (type ++ ':' :: ':' :: name).length = type.length + 2 + name.length := by
    rw [List.length_append, List.length_cons, List.length_cons]
    omega
  rcases hcase with ⟨-, heq⟩ | ⟨signature, m, rfl, hend, heq⟩
  · -- without signature nothing may follow that goes on with the name
    obtain ⟨rfl, rfl⟩ : kind = .member ∧ n = type.length + 2 + name.length := by
      simpa using heq
    have htake : cs.take (type.length + 2 + name.length) = type ++ ':' :: ':' :: name := by
      rw [hfront, ← hlength, List.take_left]
    rw [htake] at hrest ⊢
    have happart : ∀ c ∈ rest.head?, continuesIdent c = false ∧ c ≠ '(' := by
      rcases hrest with hsignature | happart
      · rw [hparts.isMethodIdent_plain] at hsignature
        cases hsignature
      · exact happart
    have hparts' : MemberParts ((type ++ ':' :: ':' :: name) ++ rest) type name rest :=
      { hparts with
        text := by simp
        name_end := fun c hc => (happart c hc).1 }
    refine ⟨?_, hparts'.memberExtent_plain fun hhead => (happart '(' hhead).2 rfl⟩
    rw [hfront, List.length_append, hlength]
    omega
  · obtain ⟨rfl, rfl⟩ : kind = .member ∧ n = type.length + 2 + name.length + 1 + m := by
      simpa using heq
    obtain ⟨hle, hend'⟩ := signatureEnd_take_append hend rest
    have htake : cs.take (type.length + 2 + name.length + 1 + m) =
        (type ++ ':' :: ':' :: name) ++ '(' :: signature.take m := by
      have hsum : type.length + 2 + name.length + 1 + m =
          (type ++ ':' :: ':' :: name).length + (m + 1) := by omega
      rw [hsum, hfront, List.take_length_add_append, List.take_succ_cons]
    have hparts' : MemberParts (cs.take (type.length + 2 + name.length + 1 + m) ++ rest) type name
        ('(' :: (signature.take m ++ rest)) :=
      { hparts with
        text := by rw [htake]; simp
        name_end := hparts.name_end }
    refine ⟨?_, hparts'.memberExtent_signature hend'⟩
    rw [hfront, List.length_append, hlength, List.length_cons]
    omega

/-! ## Section 5: Lexemes that have been taken are taken again -/

theorem extent_take_append (h : extent c cs = .ok ⟨some kind, n⟩)
    (hrest : Word.Apart ⟨kind, String.ofList (c :: cs.take n)⟩ rest) :
    n ≤ cs.length ∧ extent c (cs.take n ++ rest) = .ok ⟨some kind, n⟩ := by
  rcases extent_eq_some h with ⟨hstarts, rfl, rfl⟩ | ⟨rfl, hmember⟩ | ⟨hdigit, rfl, rfl⟩ |
    ⟨hquote, rfl, hend⟩ | ⟨rfl, -⟩
  · refine ⟨(List.takeWhile_prefix _).length_le, ?_⟩
    rw [extent_ident hstarts, takeWhile_take_append hrest]
  · exact memberExtent_take_append hmember hrest
  · refine ⟨(List.takeWhile_prefix _).length_le, ?_⟩
    rw [extent_number hdigit, takeWhile_take_append hrest]
  · obtain ⟨hle, hend'⟩ := stringEnd_take_append hend rest
    exact ⟨hle, extent_string hquote hend'⟩
  · exact hrest.elim

/-- A lexeme stands in front of everything that does not go on with it. -/
theorem Word.standsBefore (hw : w.isLexeme = true) (hrest : w.Apart rest) :
    w.StandsBefore rest := by
  obtain ⟨c, cs, htext, hextent⟩ := isLexeme_iff.mp hw
  rw [List.append_nil] at hextent
  have hword : w = ⟨w.kind, String.ofList (c :: cs.take cs.length)⟩ := by
    rw [List.take_length, ← htext, String.ofList_toList]
  have htaken := extent_take_append hextent (hword ▸ hrest)
  rw [List.take_length] at htaken
  exact ⟨c, cs, htext, htaken.2⟩

/-- Nothing goes on with a word at the end of the text. -/
theorem Word.apart_nil (h : w.kind ≠ .operator) : w.Apart [] := by
  obtain ⟨kind, text⟩ := w
  cases kind with
  | ident => exact fun c hc => by cases hc
  | member => exact .inr fun c hc => by cases hc
  | number => exact fun c hc => by cases hc
  | string => trivial
  | operator => exact absurd rfl h

theorem isLexeme_operator : ∀ op ∈ operators, Word.isLexeme ⟨.operator, op⟩ = true := by
  decide

theorem operatorAt_eq_some {op : String} (h : operatorAt (c :: cs) = some op) :
    op ∈ operators ∧ op.toList = c :: cs.take (op.length - 1) := by
  unfold operatorAt at h
  have hmem := List.mem_of_find?_eq_some h
  have hprefix : op.toList.isPrefixOf (c :: cs) = true := by simpa using List.find?_some h
  obtain ⟨rest, hrest⟩ := List.isPrefixOf_iff_prefix.mp hprefix
  refine ⟨hmem, ?_⟩
  cases hop : op.toList with
  | nil =>
    have hempty : ∀ op ∈ operators, op.toList ≠ [] := by decide
    exact absurd hop (hempty op hmem)
  | cons =>
    rw [hop, List.cons_append, List.cons.injEq] at hrest
    rw [← String.length_toList, hop, List.length_cons, Nat.add_sub_cancel, ← hrest.2,
      List.take_left, hrest.1]

/-- What is cut off a text is a lexeme. -/
theorem isLexeme_of_extent (h : extent c cs = .ok ⟨some kind, n⟩) :
    Word.isLexeme ⟨kind, String.ofList (c :: cs.take n)⟩ = true := by
  by_cases hkind : kind = .operator
  · rcases extent_eq_some h with ⟨-, rfl, -⟩ | ⟨-, hmember⟩ | ⟨-, rfl, -⟩ | ⟨-, rfl, -⟩ |
      ⟨-, op, hop, rfl⟩
    · cases hkind
    · have hmember := kind_of_memberExtent hmember
      simp [hkind] at hmember
    · cases hkind
    · cases hkind
    · obtain ⟨hmem, htext⟩ := operatorAt_eq_some hop
      rw [← htext, String.ofList_toList, hkind]
      exact isLexeme_operator op hmem
  · obtain ⟨hle, htaken⟩ := extent_take_append h (Word.apart_nil hkind)
    rw [Word.isLexeme_iff]
    refine ⟨c, cs.take n, String.toList_ofList, ?_⟩
    rw [htaken, List.length_take, Nat.min_eq_left hle]

/-! ## Section 6: Texts that are cut into words -/

/-- One lexeme is cut off, which leaves a token or none. -/
theorem lexFrom_cons_eq_ok :
    lexFrom offset (c :: cs) = .ok ts ↔ ∃ kind n tail, extent c cs = .ok ⟨kind, n⟩ ∧
      lexFrom (offset + Text.byteLength (c :: cs.take n)) (cs.drop n) = .ok tail ∧
      ts = (kind.map fun k => (⟨k, String.ofList (c :: cs.take n), offset⟩ : Token)).toList
        ++ tail := by
  rw [lexFrom]
  cases hextent : extent c cs with
  | error => simp
  | ok e =>
    obtain ⟨kind, n⟩ := e
    simp only [Except.ok.injEq, Extent.mk.injEq]
    cases htail : lexFrom (offset + Text.byteLength (c :: cs.take n)) (cs.drop n) with
    | error =>
      simp only [reduceCtorEq, false_iff]
      rintro ⟨_, _, tail, ⟨rfl, rfl⟩, hok, -⟩
      rw [htail] at hok
      cases hok
    | ok tail =>
      constructor
      · intro h
        refine ⟨kind, n, tail, ⟨rfl, rfl⟩, htail, ?_⟩
        cases kind <;> cases h <;> rfl
      · rintro ⟨_, _, tail', ⟨rfl, rfl⟩, hok, rfl⟩
        rw [htail] at hok
        cases hok
        cases kind <;> rfl

/-- A source is cut from its beginning to its end. -/
theorem lex_eq_ok {source : String} {s : TokenStream} : lex source = .ok s ↔
    lexFrom 0 source.toList = .ok s.tokens ∧ s.stop = Text.byteLength source.toList := by
  unfold lex
  cases hlex : lexFrom 0 source.toList with
  | error => simp
  | ok =>
    constructor
    · intro h
      cases h
      exact ⟨rfl, rfl⟩
    · rintro ⟨htokens, hstop⟩
      cases s
      cases htokens
      cases hstop
      rfl

theorem lexFrom_lexemes (h : lexFrom offset cs = .ok ts) : ∀ t ∈ ts, t.word.isLexeme = true := by
  induction hlength : cs.length using Nat.strongRecOn generalizing offset cs ts with
  | ind length ih =>
    cases cs with
    | nil =>
      rw [lexFrom] at h
      cases h
      exact List.forall_mem_nil _
    | cons c cs =>
      obtain ⟨kind, n, tail, hextent, htail, rfl⟩ := lexFrom_cons_eq_ok.mp h
      have hless : (cs.drop n).length < length := by
        rw [← hlength, List.length_drop, List.length_cons]
        omega
      have hrest := ih _ hless htail rfl
      cases kind with
      | none => exact hrest
      | some =>
        intro t ht
        rcases List.mem_cons.mp ht with rfl | ht
        · exact isLexeme_of_extent hextent
        · exact hrest t ht

/-- The text is cut into the given words, at whatever offset it starts. -/
def Lexes (cs : List Char) (ws : List Word) : Prop :=
  ∀ offset, ∃ ts, lexFrom offset cs = .ok ts ∧ ts.map Token.word = ws

theorem Lexes.nil : Lexes [] [] := fun _ => ⟨[], by rw [lexFrom], rfl⟩

theorem Lexes.blank {ws : List Word} (h : Lexes cs ws) : Lexes (' ' :: cs) ws := by
  intro offset
  obtain ⟨ts, hts, hws⟩ := h (offset + Text.byteLength [' '])
  exact ⟨ts, lexFrom_cons_eq_ok.mpr ⟨none, 0, ts, rfl, hts, rfl⟩, hws⟩

/-- A word that stands in front of a text is cut off, and the text is what is left. -/
theorem lexFrom_word (hw : w.StandsBefore rest) : lexFrom offset (w.text.toList ++ rest) = .ok ts ↔
      ∃ tail, lexFrom (offset + Text.byteLength w.text.toList) rest = .ok tail ∧
        ts = ⟨w.kind, w.text, offset⟩ :: tail := by
  obtain ⟨c, cs, htext, hextent⟩ := hw
  have hword : String.ofList (c :: cs) = w.text := by rw [← htext, String.ofList_toList]
  rw [htext, List.cons_append, lexFrom_cons_eq_ok]
  constructor
  · rintro ⟨kind, n, tail, hcut, htail, rfl⟩
    rw [hextent] at hcut
    cases hcut
    rw [List.take_left, List.drop_left] at htail
    exact ⟨tail, htail, by rw [List.take_left, hword]; rfl⟩
  · rintro ⟨tail, htail, rfl⟩
    refine ⟨some w.kind, cs.length, tail, hextent, ?_, ?_⟩
    · rw [List.take_left, List.drop_left]
      exact htail
    · rw [List.take_left, hword]
      rfl

theorem Lexes.word {ws : List Word} (hw : w.StandsBefore rest) (h : Lexes rest ws) :
    Lexes (w.text.toList ++ rest) (w :: ws) := by
  intro offset
  obtain ⟨ts, hts, rfl⟩ := h (offset + Text.byteLength w.text.toList)
  exact ⟨⟨w.kind, w.text, offset⟩ :: ts, (lexFrom_word hw).mpr ⟨ts, hts, rfl⟩, rfl⟩

end DefaultLowering.Fragment
