import DefaultLowering.Proofs.Lexemes

/-!
# How tokens cover the source

A fragment that can be cut is made up of its tokens and of gaps before, between and behind them.
Nothing is left out and nothing is taken twice, and a gap has nothing in it but blanks and comments.
A token reaches as far as it can.

- `Separates`, `Skipped`: a blank or a comment, and the gaps that are made of them;
- `Token.IsWhole`: a token that reaches as far as it can;
- `Tiles`: gaps and tokens by turns make up a text, which is what `lexFrom` finds (`lexFrom_tiles`);
- `lexFrom_error`: a text that cannot be cut is refused at one of its characters;
- `lex_covers`: what this means for a source and its tokens.
-/

namespace DefaultLowering.Fragment

open Text

variable {n offset : Nat} {cs : List Char} {c : Char} {ts : List Token} {e : SyntaxError}

/-! ## Section 1: Gaps -/

/-- The text is a blank or a complete comment in front of `after`.  A comment of the first sort goes
    up to the end of its line or of the source, one of the second sort up to its first `*/`. -/
inductive Separates : (piece after : List Char) → Prop where
  | blank {c : Char} {after : List Char} (hc : isBlank c = true) : Separates [c] after
  | line {text after : List Char} (htext : '\n' ∉ text) (hend : ∀ c ∈ after.head?, c = '\n') :
      Separates ('/' :: '/' :: text) after
  | block {text after : List Char} (htext : ¬ ['*', '/'] <:+: text) :
      Separates ('/' :: '*' :: (text ++ ['*', '/'])) after

/-- The text is made of blanks and complete comments in front of `after`. -/
inductive Skipped : (gap after : List Char) → Prop where
  | nil {after : List Char} : Skipped [] after
  | cons {piece gap after : List Char} (hpiece : Separates piece (gap ++ after))
      (hgap : Skipped gap after) : Skipped (piece ++ gap) after

/-- A comment has its end where it stands first. -/
theorem commentEnd_eq_some (h : commentEnd cs = some n) :
    ∃ text, cs.take n = text ++ ['*', '/'] ∧ ¬ ['*', '/'] <:+: text := by
  fun_induction commentEnd cs generalizing n with
  | case1 =>
    cases h
    exact ⟨[], rfl, by simp⟩
  | case2 c cs hnot ih =>
    obtain ⟨m, hm, rfl⟩ := Option.map_eq_some_iff.mp h
    obtain ⟨text, htake, hfirst⟩ := ih hm
    refine ⟨c :: text, by rw [List.take_succ_cons, htake, List.cons_append], ?_⟩
    intro hinfix
    rcases List.infix_cons_iff.mp hinfix with hbegins | hinfix
    · -- the comment would have ended at the first character
      obtain ⟨rfl, rest, rfl⟩ := List.cons_prefix_cons.mp hbegins
      have hcs := List.take_append_drop m cs
      rw [htake] at hcs
      exact hnot _ rfl hcs.symm
    · exact hfirst hinfix
  | case3 => cases h

/-- What leaves no token is a blank or a complete comment. -/
theorem separates_of_extent (h : extent c cs = .ok ⟨none, n⟩) :
    Separates (c :: cs.take n) (cs.drop n) := by
  unfold extent at h
  split at h
  · rename_i hblank
    cases h
    exact .blank hblank
  split at h
  · -- a comment up to the end of the line, which is left to be a blank
    rename_i hslash
    obtain ⟨rfl, hhead⟩ := hslash
    obtain ⟨cs, rfl⟩ := List.head?_eq_some_iff.mp hhead
    cases h
    rw [List.takeWhile_cons_of_pos (by decide), List.length_cons, List.take_succ_cons,
      List.drop_succ_cons, take_length_takeWhile]
    refine .line ?_ ?_
    · intro hmem
      simpa using List.mem_takeWhile_imp hmem
    · intro d hd
      simpa using head?_drop_takeWhile cs d hd
  split at h
  · -- a comment up to the mark that closes it
    rename_i hstar
    obtain ⟨rfl, hhead⟩ := hstar
    obtain ⟨cs, rfl⟩ := List.head?_eq_some_iff.mp hhead
    split at h
    · cases h
    · rename_i m hend
      cases h
      obtain ⟨text, htake, hfirst⟩ := commentEnd_eq_some hend
      rw [Nat.add_comm, List.take_succ_cons, show cs.take m = text ++ ['*', '/'] from htake]
      exact .block hfirst
  -- all other lexemes leave a token
  split at h
  · cases h
  split at h
  · cases kind_of_memberExtent h
  split at h
  · cases h
  split at h
  · split at h <;> cases h
  · split at h <;> cases h

/-! ## Section 2: Whole tokens -/

/-- Where the token ends. -/
def Token.stop (t : Token) : Nat := t.offset + byteLength t.text.toList

/-- The token reaches as far as it can in front of `after`: no operator of the table that stands in its
    place is longer, and nothing goes on with an identifier or a number. -/
structure Token.IsWhole (t : Token) (after : List Char) : Prop where
  ne : t.text ≠ ""
  operator : t.kind = .operator → t.text ∈ operators ∧
    ∀ op ∈ operators, op.toList <+: t.text.toList ++ after → op.length ≤ t.text.length
  ident : t.kind = .ident → t.text.toList.all continuesIdent = true ∧
    ∀ c ∈ after.head?, continuesIdent c = false
  number : t.kind = .number → t.text.toList.all isNumberPart = true ∧
    ∀ c ∈ after.head?, isNumberPart c = false

/-- In the order of the table no operator stands behind a shorter one. -/
theorem operators_sorted : operators.Pairwise fun op op' => op'.length ≤ op.length := by
  decide

/-- The first operator that fits is the longest. -/
theorem length_le_of_operatorAt {op op' : String} (h : operatorAt cs = some op)
    (hmem : op' ∈ operators) (hbegins : op'.toList <+: cs) : op'.length ≤ op.length := by
  obtain ⟨-, before, after, htable, hbefore⟩ := List.find?_eq_some_iff_append.mp h
  have hsorted := operators_sorted
  rw [htable] at hmem hsorted
  rcases List.mem_append.mp hmem with hmem | hmem
  · -- what stands in front of the first that fits does not fit
    have hnot := hbefore op' hmem
    rw [List.isPrefixOf_iff_prefix.mpr hbegins] at hnot
    cases hnot
  · rcases List.mem_cons.mp hmem with rfl | hmem
    · exact Nat.le_refl _
    · exact List.rel_of_pairwise_cons (List.pairwise_append.mp hsorted).2.1 hmem

/-- What is cut off a text as a token is whole. -/
theorem isWhole_of_extent {kind : TokenKind} (offset : Nat) (h : extent c cs = .ok ⟨some kind, n⟩) :
    Token.IsWhole ⟨kind, String.ofList (c :: cs.take n), offset⟩ (cs.drop n) := by
  have hne : String.ofList (c :: cs.take n) ≠ "" := by
    intro hempty
    have := congrArg String.toList hempty
    rw [String.toList_ofList] at this
    cases this
  rcases extent_eq_some h with ⟨hstarts, rfl, rfl⟩ | ⟨-, hmember⟩ | ⟨hdigit, rfl, rfl⟩ |
    ⟨-, rfl, -⟩ | ⟨rfl, op, hop, rfl⟩
  · refine ⟨hne, nofun, fun _ => ⟨?_, head?_drop_takeWhile cs⟩, nofun⟩
    show (String.ofList _).toList.all _ = true
    rw [take_length_takeWhile, String.toList_ofList, List.all_cons, List.all_takeWhile,
      Bool.and_true, continuesIdent, hstarts, Bool.true_or]
  · -- a member reference is of none of the three sorts
    obtain rfl := Option.some.inj (kind_of_memberExtent hmember)
    exact ⟨hne, nofun, nofun, nofun⟩
  · refine ⟨hne, nofun, nofun, fun _ => ⟨?_, head?_drop_takeWhile cs⟩⟩
    show (String.ofList _).toList.all _ = true
    rw [take_length_takeWhile, String.toList_ofList, List.all_cons, List.all_takeWhile,
      Bool.and_true, isNumberPart, hdigit, Bool.true_or]
  · exact ⟨hne, nofun, nofun, nofun⟩
  · obtain ⟨hmem, htext⟩ := operatorAt_eq_some hop
    rw [← htext, String.ofList_toList] at hne ⊢
    refine ⟨hne, fun _ => ⟨hmem, ?_⟩, nofun, nofun⟩
    intro op' hop' hbegins
    have hwhole : op.toList ++ cs.drop (op.length - 1) = c :: cs := by
      rw [htext, List.cons_append, List.take_append_drop]
    exact length_le_of_operatorAt hop hop' (hwhole ▸ hbegins)

/-! ## Section 3: Tilings -/

/-- The text, which starts at `offset`, is made up of gaps and the given tokens by turns, with every
    token at its offset. -/
inductive Tiles : (offset : Nat) → List Char → List Token → Prop where
  | last {offset : Nat} {gap : List Char} (hgap : Skipped gap []) : Tiles offset gap []
  | token {offset : Nat} {gap rest : List Char} {t : Token} {ts : List Token}
      (hgap : Skipped gap (t.text.toList ++ rest)) (hoffset : t.offset = offset + byteLength gap)
      (hwhole : t.IsWhole rest) (hrest : Tiles t.stop rest ts) :
      Tiles offset (gap ++ (t.text.toList ++ rest)) (t :: ts)

/-- A gap may begin with more blanks and comments. -/
theorem Tiles.skip {piece : List Char} (hpiece : Separates piece cs)
    (h : Tiles (offset + byteLength piece) cs ts) :
    Tiles offset (piece ++ cs) ts := by
  cases h with
  | last hgap => exact .last (.cons (by rwa [List.append_nil]) hgap)
  | token hgap hoffset hwhole hrest =>
    rw [← List.append_assoc]
    refine .token (.cons hpiece hgap) ?_ hwhole hrest
    rw [hoffset, byteLength_append, Nat.add_assoc]

/-- A token stands in front of what is tiled, with no gap before it. -/
theorem Tiles.first {t : Token} {rest : List Char} (hwhole : t.IsWhole rest)
    (hrest : Tiles t.stop rest ts) : Tiles t.offset (t.text.toList ++ rest) (t :: ts) := by
  show Tiles t.offset ([] ++ (t.text.toList ++ rest)) (t :: ts)
  exact .token .nil rfl hwhole hrest

/-- Lexeme by lexeme, a text that can be cut is tiled by its tokens. -/
theorem lexFrom_tiles (h : lexFrom offset cs = .ok ts) : Tiles offset cs ts := by
  have hsplit : ∀ (c : Char) (cs : List Char) (n : Nat),
      c :: cs = (c :: cs.take n) ++ cs.drop n := by
    intro c cs n
    rw [List.cons_append, List.take_append_drop]
  fun_induction lexFrom offset cs generalizing ts with
  | case1 =>
    cases h
    exact .last .nil
  | case2 => cases h
  | case3 => cases h
  | case4 offset c cs n lexeme tokens htail hextent =>
    -- a blank or a comment
    rename_i ih
    cases h
    rw [hsplit c cs n]
    exact .skip (separates_of_extent hextent) (ih htail)
  | case5 offset c cs n lexeme tokens htail kind hextent =>
    rename_i ih
    cases h
    have hrest : Tiles (offset + byteLength (String.ofList lexeme).toList) (cs.drop n) tokens := by
      rw [String.toList_ofList]
      exact ih htail
    have htile := Tiles.first (isWhole_of_extent offset hextent) hrest
    rw [String.toList_ofList] at htile
    rw [hsplit c cs n]
    exact htile

namespace Tiles

variable {offset : Nat} {cs : List Char} {ts : List Token}

/-- The tokens stand in the text, one behind the other. -/
theorem bounds (h : Tiles offset cs ts) :
    (∀ t ∈ ts, offset ≤ t.offset ∧ t.stop ≤ offset + byteLength cs) ∧
      ts.Pairwise fun t u => t.stop ≤ u.offset := by
  induction h with
  | last => exact ⟨List.forall_mem_nil _, .nil⟩
  | @token offset gap rest t ts _ hoffset _ _ ih =>
    obtain ⟨hinside, happart⟩ := ih
    have hstop : t.stop = t.offset + byteLength t.text.toList := rfl
    rw [byteLength_append, byteLength_append]
    refine ⟨?_, List.pairwise_cons.mpr ⟨fun u hu => (hinside u hu).1, happart⟩⟩
    intro u hu
    rcases List.mem_cons.mp hu with rfl | hu
    · omega
    · have := hinside u hu
      omega

/-- Every token is cut out of the text at its offset, and is whole there. -/
theorem standsIn (front : List Char) (h : Tiles (byteLength front) cs ts) :
    ∀ t ∈ ts, ∃ before after, front ++ cs = before ++ (t.text.toList ++ after) ∧
      t.offset = byteLength before ∧ t.IsWhole after := by
  generalize hoffset : byteLength front = offset at h
  induction h generalizing front with
  | last => exact List.forall_mem_nil _
  | @token offset gap rest t ts _ hplace hwhole _ ih =>
    intro u hu
    rcases List.mem_cons.mp hu with rfl | hu
    · refine ⟨front ++ gap, rest, by rw [List.append_assoc], ?_, hwhole⟩
      rw [hplace, byteLength_append, hoffset]
    · -- the rest of the tokens stand behind the gap and the token
      have hfront : byteLength (front ++ (gap ++ t.text.toList)) = t.stop := by
        rw [byteLength_append, byteLength_append, Token.stop, hplace]
        omega
      obtain ⟨before, after, htext, hbefore⟩ := ih _ hfront u hu
      refine ⟨before, after, ?_, hbefore⟩
      rw [← htext]
      simp

end Tiles

/-! ## Section 4: Errors -/

/-- The characters of names and types are of one byte. -/
theorem utf8Size_of_isTypePart (h : isTypePart c = true) : c.utf8Size = 1 := by
  rw [Char.utf8Size_eq_one_iff]
  simp only [isTypePart, continuesIdent, startsIdent, isDigit, Bool.or_eq_true, Bool.and_eq_true,
    decide_eq_true_eq, beq_iff_eq, Char.le_def] at h
  rcases h with (((((rfl | rfl) | hlower) | hupper) | hdigit) | rfl)
  · decide
  · decide
  · exact UInt32.le_trans hlower.2 (by decide)
  · exact UInt32.le_trans hupper.2 (by decide)
  · exact UInt32.le_trans hdigit.2 (by decide)
  · decide

theorem byteLength_of_isTypePart (h : cs.all isTypePart = true) :
    byteLength cs = cs.length := by
  induction cs with
  | nil => rfl
  | cons c cs ih =>
    rw [List.all_cons, Bool.and_eq_true] at h
    rw [byteLength_cons, utf8Size_of_isTypePart h.1, ih h.2, List.length_cons, Nat.add_comm]

/-- A member reference is refused at its `@`, or at the bracket that is not closed. -/
theorem memberExtent_error (h : memberExtent cs = .error e) :
    e.offset = 0 ∨ ∃ type name signature, MemberParts cs type name ('(' :: signature) ∧
      e.offset = 1 + (type.length + 2 + name.length) := by
  unfold memberExtent at h
  split at h
  · cases h
    exact .inl rfl
  rename_i k hk
  split at h
  · cases h
    exact .inl rfl
  rename_i hpos
  split at h
  · cases h
    exact .inl rfl
  rename_i htype
  simp only at h
  split at h
  · cases h
    exact .inl rfl
  rename_i hname
  obtain ⟨hlength, hparts⟩ := MemberParts.of_separatorIndex hk hpos (by simpa using htype)
    (by simpa using hname)
  have hdrop := hparts.drop_name
  rw [hlength] at hdrop
  rw [hdrop] at h
  split at h
  · rename_i signature hrest
    split at h
    · cases h
      rw [hrest] at hparts
      exact .inr ⟨_, _, _, hparts, by rw [hlength]⟩
    · cases h
  · cases h

/-- A lexeme is refused at one of the characters that are left. -/
theorem extent_error (h : extent c cs = .error e) :
    ∃ before d after, c :: cs = before ++ d :: after ∧ e.offset = byteLength before := by
  -- all errors but one are reported at the first character
  have hfirst : e.offset = 0 →
      ∃ before d after, c :: cs = before ++ d :: after ∧ e.offset = byteLength before :=
    fun hoffset => ⟨[], c, cs, rfl, hoffset⟩
  unfold extent at h
  split at h
  · cases h
  split at h
  · cases h
  split at h
  · split at h
    · cases h
      exact hfirst rfl
    · cases h
  split at h
  · cases h
  split at h
  · rename_i hat
    rcases memberExtent_error h with hoffset | ⟨type, name, signature, hparts, hoffset⟩
    · exact hfirst hoffset
    · -- type and name are of characters of one byte
      refine ⟨c :: (type ++ ':' :: ':' :: name), '(', signature, ?_, ?_⟩
      · rw [hparts.text]
        simp
      · have hname : name.all isTypePart = true :=
          List.all_eq_true.mpr fun d hd =>
            Bool.or_eq_true_iff.mpr (.inl (List.all_eq_true.mp hparts.name_all d hd))
        have hcolon : (':' : Char).utf8Size = 1 := by decide
        have hchar : c.utf8Size = 1 := by
          rw [hat]
          decide
        simp only [byteLength_cons, byteLength_append, byteLength_of_isTypePart hparts.type_all,
          byteLength_of_isTypePart hname, hcolon, hchar, hoffset]
        omega
  split at h
  · cases h
  split at h
  · split at h
    · cases h
      exact hfirst rfl
    · cases h
  · split at h
    · cases h
      exact hfirst rfl
    · cases h

/-- A text that cannot be cut is refused at one of its characters. -/
theorem lexFrom_error (h : lexFrom offset cs = .error e) :
    ∃ before c after, cs = before ++ c :: after ∧ e.offset = offset + byteLength before := by
  fun_induction lexFrom offset cs with
  | case1 => cases h
  | case2 offset c cs e' hextent =>
    cases h
    obtain ⟨before, d, after, htext, hoffset⟩ := extent_error hextent
    exact ⟨before, d, after, htext, congrArg (offset + ·) hoffset⟩
  | case3 offset c cs kind n hextent lexeme e' htail =>
    rename_i ih
    cases h
    obtain ⟨before, d, after, htext, hoffset⟩ := ih htail
    refine ⟨lexeme ++ before, d, after, ?_, ?_⟩
    · rw [List.append_assoc, ← htext]
      show c :: cs = c :: (cs.take n ++ cs.drop n)
      rw [List.take_append_drop]
    · rw [hoffset, byteLength_append, Nat.add_assoc]
  | case4 => cases h
  | case5 => cases h

/-! ## Section 5: The whole source -/

/-- The bytes of a text are counted as the library counts them. -/
theorem byteLength_toList (s : String) : byteLength s.toList = s.utf8ByteSize := by
  have hlist : ∀ cs : List Char, byteLength cs = (String.ofList cs).utf8ByteSize := by
    intro cs
    induction cs with
    | nil => simp
    | cons c cs ih =>
      rw [byteLength_cons, ih, ← List.singleton_append, String.ofList_append,
        String.utf8ByteSize_append]
      simp
  rw [hlist, String.ofList_toList]

/-- A whole token has a byte at least. -/
theorem Token.IsWhole.offset_lt_stop {t : Token} {after : List Char} (h : t.IsWhole after) :
    t.offset < t.stop := by
  have hpos : 0 < byteLength t.text.toList := by
    cases htext : t.text.toList with
    | nil => exact absurd (String.toList_inj.mp htext) h.ne
    | cons c =>
      have := Char.utf8Size_pos c
      rw [byteLength_cons]
      omega
  unfold Token.stop
  omega

/-- The tokens cover the source. -/
structure TokenStream.Covers (s : TokenStream) (source : String) : Prop where
  /-- Gaps and tokens by turns make up the source. -/
  tiles : Tiles 0 source.toList s.tokens
  /-- Every token stands at its offset and is whole there. -/
  stands : ∀ t ∈ s.tokens, ∃ before after,
    source.toList = before ++ (t.text.toList ++ after) ∧ t.offset = byteLength before ∧
      t.IsWhole after
  lexemes : ∀ t ∈ s.tokens, t.word.isLexeme = true
  /-- Offsets grow up to the end of the source. -/
  sorted : (s.tokens.map Token.offset ++ [s.stop]).Pairwise (· < ·)
  apart : s.tokens.Pairwise fun t u => t.stop ≤ u.offset
  inside : ∀ t ∈ s.tokens, t.stop ≤ s.stop
  stop : s.stop = source.utf8ByteSize

theorem covers_of_lex {source : String} {s : TokenStream} (h : lex source = .ok s) :
    s.Covers source := by
  obtain ⟨hok, hstop⟩ := lex_eq_ok.mp h
  have htiles := lexFrom_tiles hok
  have hstands := htiles.standsIn []
  obtain ⟨hinside, happart⟩ := htiles.bounds
  have hlt : ∀ t ∈ s.tokens, t.offset < t.stop := by
    intro t ht
    obtain ⟨_, _, -, -, hwhole⟩ := hstands t ht
    exact hwhole.offset_lt_stop
  have hend : ∀ t ∈ s.tokens, t.stop ≤ s.stop := by
    intro t ht
    have := (hinside t ht).2
    omega
  refine ⟨htiles, hstands, lexFrom_lexemes hok, ?_, happart, hend, ?_⟩
  · rw [List.pairwise_append]
    refine ⟨?_, List.pairwise_singleton _ _, ?_⟩
    · refine List.pairwise_map.mpr (happart.imp_of_mem ?_)
      intro t u ht _ hle
      exact Nat.lt_of_lt_of_le (hlt t ht) hle
    · intro offset hoffset stop hstop
      obtain ⟨t, ht, rfl⟩ := List.mem_map.mp hoffset
      rw [List.mem_singleton.mp hstop]
      exact Nat.lt_of_lt_of_le (hlt t ht) (hend t ht)
  · rw [hstop, byteLength_toList]

/-- The tokens of a source that can be cut cover it: they stand in the source at their offsets, which
    grow, each begins where the one before it has ended or later, and there is nothing before, between
    and behind them but blanks and complete comments.  No operator is longer in its place, and
    identifiers and numbers cannot go on.  A source that cannot be cut is refused at one of its
    characters, and so at an offset inside it. -/
theorem lex_covers (source : String) :
    (∀ s, lex source = .ok s → s.Covers source) ∧
      ∀ e, lex source = .error e → e.offset < source.utf8ByteSize ∧
        ∃ before c after, source.toList = before ++ c :: after ∧ e.offset = byteLength before := by
  refine ⟨fun s hok => covers_of_lex hok, ?_⟩
  intro e herror
  unfold lex at herror
  split at herror
  · rename_i e' hlex
    cases herror
    obtain ⟨before, c, after, htext, hoffset⟩ := lexFrom_error hlex
    rw [Nat.zero_add] at hoffset
    refine ⟨?_, before, c, after, htext, hoffset⟩
    have hpos := Char.utf8Size_pos c
    rw [← byteLength_toList, htext, byteLength_append, byteLength_cons]
    omega
  · cases herror

/-- Comments of both sorts, an operator with shorter ones at its beginning, a string with a quote in it
    and an identifier behind a number; and a member reference that is not closed. -/
theorem lex_covers_example :
    (∃ s : TokenStream, lex "a/*=*/!==\"\\\"é\" 2.b//c" = .ok s ∧
      s.tokens.map (fun t => (t.offset, t.text)) =
        [(0, "a"), (6, "!=="), (9, "\"\\\"é\""), (16, "2."), (18, "b")] ∧
      s.stop = 22 ∧ s.Covers "a/*=*/!==\"\\\"é\" 2.b//c") ∧
    ∃ e, lex "/*é*/@T::m(I" = .error e ∧ e.offset = 11 ∧
      e.offset < "/*é*/@T::m(I".utf8ByteSize := by
  have hok : lex "a/*=*/!==\"\\\"é\" 2.b//c" =
      .ok ⟨[⟨.ident, "a", 0⟩, ⟨.operator, "!==", 6⟩, ⟨.string, "\"\\\"é\"", 9⟩, ⟨.number, "2.", 16⟩,
        ⟨.ident, "b", 18⟩], 22⟩ := by
    decide +kernel
  have herror : lex "/*é*/@T::m(I" = .error ⟨11, .unterminatedSignature⟩ := by decide +kernel
  exact ⟨⟨_, hok, rfl, rfl, (lex_covers _).1 _ hok⟩, _, herror, rfl, ((lex_covers _).2 _ herror).1⟩

end DefaultLowering.Fragment
