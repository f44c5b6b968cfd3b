import DefaultLowering.Proofs.Phrases

/-!
# Accepted fragments are derived

Each reader takes a phrase of the grammar from the front of the tokens and gives the tree of that
phrase, or it is refused at one of the tokens or at the end.  The readers call each other on fewer tokens,
and so do the lemmas about them, one for each reader.

Left association comes out of the loop over operators.  Its invariant is that what stands in front
is an operation of some level, and that no operator that binds tighter than that level comes next.

- `Reads`: what a reading has used and what it leaves, or where it is refused;
- `readOperators_reads`: the loop, under that invariant;
- `parse_derives`: the tokens of an accepted fragment are derived, all of them and in their order,
  with the tree that was read.
-/

namespace DefaultLowering.Fragment

variable {ts : List Token} {x : Expr} {ss : List Stmt} {f : Function} {source : String}
  {params : List String}

open Description (bind_eq_ok)

/-! ## Section 1: Readings -/

/-- What a reading comes to: an error, or what it gives and the tokens that are left. -/
abbrev Found (α : Type) (p : List Token → Prop) :=
  Except SyntaxError (α × { rest : List Token // p rest })

/-- A reading of the tokens `ts`.  It is refused where one of them begins, or at their end; or else what
    it gives, the tokens that it has used and those that are left are as described. -/
def Reads {α : Type} {p : List Token → Prop} (stop : Nat) (ts : List Token)
    (P : α → List Token → List Token → Prop) : Found α p → Prop
  | .error e => ∃ rest, rest <:+ ts ∧ e.offset = nextOffset stop rest
  | .ok x => ∃ used, ts = used ++ x.2.1 ∧ P x.1 used x.2.1

namespace Reads

variable {α β : Type} {p q : List Token → Prop} {stop : Nat} {ts rest : List Token}
  {P : α → List Token → List Token → Prop} {Q : β → List Token → List Token → Prop}
  {r : Found β q}

theorem ok {x : α} {hrest : p rest} (used : List Token) (hts : ts = used ++ rest) (h : P x used rest) :
    Reads stop ts P (.ok (x, ⟨rest, hrest⟩)) := ⟨used, hts, h⟩

theorem refused {e : SyntaxError} (h : e.offset = nextOffset stop ts) :
    Reads (p := p) stop ts P (.error e) := ⟨ts, List.suffix_refl _, h⟩

/-- Some tokens have been used before. -/
theorem behind (front : List Token) {r : Found α p}
    (h : Reads stop rest (fun x used => P x (front ++ used)) r) : Reads stop (front ++ rest) P r := by
  cases r with
  | error =>
    obtain ⟨tail, htail, he⟩ := h
    exact ⟨tail, htail.trans (List.suffix_append ..), he⟩
  | ok =>
    obtain ⟨used, hused, hx⟩ := h
    exact ⟨front ++ used, by rw [hused, List.append_assoc], hx⟩

theorem accepted {c : Token} {r : Found α p}
    (hts : ts = c :: rest) (h : Reads stop rest (fun x used => P x (c :: used)) r) :
    Reads stop ts P r := by
  subst hts
  exact h.behind [c]

theorem mono {r : Found α p}
    {P' : α → List Token → List Token → Prop} (h : Reads stop ts P r)
    (hP : ∀ x used rest, P x used rest → P' x used rest) : Reads stop ts P' r := by
  cases r with
  | error => exact h
  | ok =>
    obtain ⟨used, hused, hx⟩ := h
    exact ⟨used, hused, hP _ _ _ hx⟩

theorem bind {f : β × { rest : List Token // q rest } → Found α p}
    (hr : Reads stop ts Q r) (hf : ∀ y used rest hrest, Q y used rest →
      Reads stop rest (fun x used' => P x (used ++ used')) (f (y, ⟨rest, hrest⟩))) :
    Reads stop ts P (r >>= f) := by
  cases r with
  | error => exact hr
  | ok =>
    obtain ⟨used, hused, hy⟩ := hr
    rw [hused]
    exact (hf _ _ _ _ hy).behind used

/-- A reading after which nothing more is read. -/
theorem last {f : β × { rest : List Token // q rest } → Found α p}
    (hr : Reads stop ts Q r) (hf : ∀ y used rest hrest, Q y used rest →
      ∃ x hrest', f (y, ⟨rest, hrest⟩) = .ok (x, ⟨rest, hrest'⟩) ∧ P x used rest) :
    Reads stop ts P (r >>= f) := by
  refine hr.bind fun y used rest hrest hy => ?_
  obtain ⟨x, hrest', hx, hP⟩ := hf y used rest hrest hy
  rw [hx]
  exact ok [] rfl (by rwa [List.append_nil])

theorem expect {text : String} {f : Rest ts → Found α p}
    (hf : ∀ c rest hrest, c.is text = true →
      Reads stop rest (fun x used => P x (c :: used)) (f ⟨rest, hrest⟩)) :
    Reads stop ts P (Fragment.expect stop text ts >>= f) := by
  cases ts with
  | nil => exact refused rfl
  | cons c tail =>
    rw [Fragment.expect]
    split
    · next hc => exact accepted rfl (hf c tail _ hc)
    · exact refused rfl

theorem ofKind (stop : Nat) (kinds : List TokenKind) (cause : String → SyntaxCause) (ts : List Token) :
    Reads stop ts (fun name used _ => ∃ t, t.kind ∈ kinds ∧ name = t.text ∧ used = [t])
      (tokenOf stop kinds cause ts) := by
  cases ts with
  | nil => exact refused rfl
  | cons t =>
    rw [tokenOf]
    split
    · next ht => exact ok [t] rfl ⟨t, ht, rfl, rfl⟩
    · exact refused rfl

theorem token {kinds : List TokenKind} {cause : String → SyntaxCause}
    {f : String × Rest ts → Found α p}
    (hf : ∀ t rest hrest, t.kind ∈ kinds →
      Reads stop rest (fun x used => P x (t :: used)) (f (t.text, ⟨rest, hrest⟩))) :
    Reads stop ts P (tokenOf stop kinds cause ts >>= f) := by
  refine (ofKind stop kinds cause ts).bind ?_
  rintro _ _ rest hrest ⟨t, ht, rfl, rfl⟩
  exact hf t rest hrest ht

end Reads

theorem accept?_eq_some {text : String} {rest : List Token} {hr : rest.length < ts.length}
    (h : accept? text ts = some ⟨rest, hr⟩) : ∃ t, t.is text = true ∧ ts = t :: rest := by
  cases ts with
  | nil => cases h
  | cons t tail =>
    rw [accept?] at h
    split at h
    · rename_i ht
      cases h
      exact ⟨t, ht, rfl⟩
    · cases h

theorem accept?_of_nextIs {text : String} (h : nextIs text ts = true) :
    ∃ rest hr, accept? text ts = some ⟨rest, hr⟩ := by
  cases ts with
  | nil => cases h
  | cons t tail =>
    have ht : t.is text = true := h
    rw [accept?, if_pos ht]
    exact ⟨tail, _, rfl⟩

theorem optionalEnd_ending (ts : List Token) : ∃ e, Ending e ∧ ts = e ++ (optionalEnd ts).1 := by
  unfold optionalEnd
  split
  · rename_i r hr haccept
    obtain ⟨t, ht, hts⟩ := accept?_eq_some haccept
    exact ⟨[t], .inr ⟨t, ht, rfl⟩, hts⟩
  · exact ⟨[], .inl rfl, rfl⟩

/-! ## Section 2: Operators -/

theorem binaryPower_bounds {op : String} {k : Nat} (h : binaryPower op = some k) :
    1 ≤ k ∧ k ≤ 6 := by
  unfold binaryPower at h
  split at h <;> cases h <;> decide

/-- A phrase of a tighter level is one of every looser level. -/
theorem Derives.loosen {k l : Nat} (h : Derives (.operation l x) ts) (hk : 1 ≤ k) (hkl : k ≤ l)
    (hl : l ≤ 7) : Derives (.operation k x) ts := by
  obtain ⟨d, rfl⟩ := Nat.exists_eq_add_of_le hkl
  induction d generalizing k with
  | zero => exact h
  | succ d ih =>
    have hnext : Derives (.operation (k + 1) x) ts := by
      have hsum : k + (d + 1) = k + 1 + d := by omega
      rw [hsum] at h
      exact ih (by omega) h (by omega) (by omega)
    exact .tighter hk (by omega) hnext

/-- No operator that binds tighter than `level` comes next. -/
def NoTighter (level : Nat) (ts : List Token) : Prop :=
  ∀ t ∈ ts.head?, t.kind = .operator → ∀ k, binaryPower t.text = some k → k ≤ level

/-! ## Section 3: Readers -/

/-- Statements are read up to the closing token, or to the end when there is none. -/
def StopsAt (closer : Option String) (rest : List Token) : Prop :=
  (closer = none ∧ rest = []) ∨
    ∃ t tail, rest = t :: tail ∧ t.kind = .operator ∧ closer = some t.text

/-- The tokens are a phrase with a closing parenthesis behind it. -/
def Closed (φ : Phrase) (ts : List Token) : Prop :=
  ∃ used c, ts = used ++ [c] ∧ Derives φ used ∧ c.is ")" = true

/-- The tokens are statements in braces. -/
def Braced (ss : List Stmt) (ts : List Token) : Prop :=
  ∃ o used c, ts = o :: (used ++ [c]) ∧ o.is "\x7b" = true ∧ Derives (.stmts ss) used ∧
    c.is "\x7d" = true

/-- A function literal. -/
theorem derives_func {k o : Token} {name : String} {n us bs : List Token} {ps : List String}
    (hk : k.is "function" = true) (hname : Naming name n) (ho : o.is "(" = true)
    (hps : Closed (.params ps) us) (hss : Braced ss bs) :
    Derives (.primary (.func (.declaring name ps (.block ss)))) (k :: (n ++ o :: (us ++ bs))) := by
  obtain ⟨us, c, rfl, hps, hc⟩ := hps
  obtain ⟨b, used, e, rfl, hb, hss, he⟩ := hss
  simpa using Derives.func hk hname ho hps hc hb hss he

theorem wordExpr_literal {text : String}
    (h : text = "true" ∨ text = "false" ∨ text = "null" ∨ text = "undefined") :
    wordExpr text = .literal text := by
  rcases h with rfl | rfl | rfl | rfl <;> rfl

theorem readParams_reads (stop : Nat) (ts : List Token) :
    Reads stop ts (fun ps used _ => Closed (.params ps) used) (readParams stop ts) := by
  rw [readParams]
  split
  · rename_i r hclose
    obtain ⟨c, hc, hts⟩ := accept?_eq_some hclose
    exact .ok [c] hts ⟨[], c, rfl, .noParams, hc⟩
  refine .token fun t r1 h1 ht => ?_
  have hident : t.kind = .ident := by simpa using ht
  dsimp only
  split
  · -- the last one
    rename_i hnext
    obtain ⟨r, hr, hclose⟩ := accept?_of_nextIs hnext
    obtain ⟨c, hc, hr1⟩ := accept?_eq_some hclose
    rw [readParams, hclose]
    exact .ok [c] hr1 ⟨[t], c, rfl, .lastParam hident, hc⟩
  · refine .expect fun c r2 h2 hc => ?_
    refine (readParams_reads stop r2).last fun ps _ r3 h3 hps => ⟨_, _, rfl, ?_⟩
    obtain ⟨used, d, rfl, hderives, hd⟩ := hps
    by_cases hnone : ps = []
    · -- nothing behind the comma
      subst hnone
      cases hderives
      exact ⟨[t, c], d, rfl, .lastParamComma hident hc, hd⟩
    · exact ⟨t :: c :: used, d, rfl, .moreParams hident hc hnone hderives, hd⟩
  termination_by ts.length

mutual

theorem readStmts_reads (stop : Nat) (closer : Option String) (ts : List Token) :
    Reads stop ts (fun ss used rest => Derives (.stmts ss) used ∧ StopsAt closer rest)
      (readStmts stop closer ts) := by
  cases ts with
  | nil =>
    rw [readStmts]
    split
    · rename_i hnone
      exact .ok [] rfl ⟨.noStmts, .inl ⟨Option.isNone_iff_eq_none.mp hnone, rfl⟩⟩
    · exact .refused rfl
  | cons t tail =>
    rw [readStmts]
    split
    · rename_i hclosed
      rw [Bool.and_eq_true, beq_iff_eq, beq_iff_eq] at hclosed
      exact .ok [] rfl ⟨.noStmts, .inr ⟨t, tail, rfl, hclosed.1, hclosed.2.symm⟩⟩
    refine (readStmt_reads stop (t :: tail)).bind fun s used r1 h1 hs => ?_
    refine (readStmts_reads stop closer r1).last fun ss used' r2 h2 ⟨hss, hstop⟩ => ?_
    cases s with
    | absent => exact ⟨_, _, rfl, .emptyStmt hs hss, hstop⟩
    | _ => exact ⟨_, _, rfl, .moreStmts nofun hs hss, hstop⟩
  termination_by 10 * ts.length + 9
  decreasing_by all_goals (simp only [List.length_cons] at *; omega)

theorem readStmt_reads (stop : Nat) (ts : List Token) :
    Reads stop ts (fun s used _ => Derives (.stmt s) used) (readStmt stop ts) := by
  cases ts with
  | nil =>
    rw [readStmt]
    exact .refused rfl
  | cons t tail =>
    rw [readStmt]
    -- the first token tells the statements apart
    split
    · rename_i hsemicolon
      exact .ok [t] rfl (.semicolon hsemicolon)
    split
    · refine (readBlock_reads stop (t :: tail)).last fun ss _ r1 h1 hblock => ⟨_, _, rfl, ?_⟩
      obtain ⟨o, used, c, rfl, ho, hss, hc⟩ := hblock
      exact .block ho hss hc
    split
    · rename_i hvar
      refine .accepted rfl ((readDecls_reads stop tail).bind fun ds used r1 h1 hds => ?_)
      obtain ⟨e, he, hr1⟩ := optionalEnd_ending r1
      exact .ok _ hr1 (.var hvar hds he)
    split
    · rename_i hreturn
      refine .accepted rfl ?_
      split
      · obtain ⟨e, he, htail⟩ := optionalEnd_ending tail
        exact .ok _ htail (.bareReturn hreturn he)
      · refine (readAssign_reads stop tail).bind fun x used r1 h1 hx => ?_
        obtain ⟨e, he, hr1⟩ := optionalEnd_ending r1
        exact .ok _ hr1 (.returnValue hreturn hx he)
    split
    · rename_i hif
      refine .accepted rfl (.expect fun o r1 h1 ho => ?_)
      refine (readAssign_reads stop r1).bind fun test used r2 h2 htest => ?_
      refine .expect fun c r3 h3 hc => ?_
      refine (readStmt_reads stop r3).bind fun yes used' r4 h4 hyes => ?_
      dsimp only
      split
      · refine .ok [] rfl ?_
        rw [List.append_nil]
        exact .cond hif ho htest hc hyes
      · rename_i r5 h5 helse
        obtain ⟨e, he, hr4⟩ := accept?_eq_some helse
        have hno := readStmt_reads stop r5
        exact .accepted hr4 (hno.last fun no used'' r6 h6 hno =>
          ⟨_, _, rfl, .condElse hif ho htest hc hyes he hno⟩)
    · refine (readAssign_reads stop (t :: tail)).bind fun x used r1 h1 hx => ?_
      obtain ⟨e, he, hr1⟩ := optionalEnd_ending r1
      exact .ok _ hr1 (.exprStmt hx he)
  termination_by 10 * ts.length + 8
  decreasing_by all_goals (try simp only [List.length_cons] at *); all_goals omega

theorem readBlock_reads (stop : Nat) (ts : List Token) :
    Reads stop ts (fun ss used _ => Braced ss used) (readBlock stop ts) := by
  rw [readBlock]
  refine .expect fun o r1 h1 ho => ?_
  refine (readStmts_reads stop (some "\x7d") r1).bind fun ss used r2 h2 ⟨hss, hstop⟩ => ?_
  obtain ⟨hnone, -⟩ | ⟨c, tail, rfl, hkind, hcloser⟩ := hstop
  · cases hnone
  · have hc : c.is "\x7d" = true := by simp [Token.is, hkind, ← Option.some.inj hcloser]
    exact .ok [c] rfl ⟨o, used, c, rfl, ho, hss, hc⟩
  termination_by 10 * ts.length + 7

theorem readDecls_reads (stop : Nat) (ts : List Token) :
    Reads stop ts (fun ds used _ => Derives (.decls ds) used) (readDecls stop ts) := by
  rw [readDecls]
  refine .token fun t r1 h1 ht => ?_
  refine (readInit_reads stop r1).bind fun init used r2 h2 hinit => ?_
  have hident : t.kind = .ident := by simpa using ht
  -- the declarator, with or without initial value
  have hdecl : Derives (.decl (.mk t.text init)) (t :: used) := by
    rcases hinit with ⟨rfl, rfl⟩ | ⟨e, us, rfl, he, hx⟩
    · exact .bareDecl hident
    · exact .initDecl hident he hx
  dsimp only
  split
  · refine .ok [] rfl ?_
    rw [List.append_nil]
    exact .lastDecl hdecl
  · rename_i r3 h3 hcomma
    obtain ⟨c, hc, hr2⟩ := accept?_eq_some hcomma
    have hmore := readDecls_reads stop r3
    exact .accepted hr2 (hmore.last fun ds used' r4 h4 hds => ⟨_, _, rfl, .moreDecls hdecl hc hds⟩)
  termination_by 10 * ts.length

theorem readInit_reads (stop : Nat) (ts : List Token) :
    Reads stop ts (fun x used _ => (x = .absent ∧ used = []) ∨
      ∃ e us, used = e :: us ∧ e.is "=" = true ∧ Derives (.assign x) us) (readInit stop ts) := by
  rw [readInit]
  split
  · exact .ok [] rfl (.inl ⟨rfl, rfl⟩)
  · rename_i r1 h1 hequals
    obtain ⟨e, he, hts⟩ := accept?_eq_some hequals
    have hx := readAssign_reads stop r1
    exact .accepted hts (hx.last fun x us r2 h2 hx => ⟨_, _, rfl, .inr ⟨e, us, rfl, he, hx⟩⟩)
  termination_by 10 * ts.length

theorem readAssign_reads (stop : Nat) (ts : List Token) :
    Reads stop ts (fun x used _ => Derives (.assign x) used) (readAssign stop ts) := by
  rw [readAssign]
  refine (readBinary_reads stop 1 ts).bind fun x used r1 h1 hx => ?_
  obtain ⟨hx, -⟩ := hx (by decide) (by decide)
  dsimp only
  split
  · refine .ok [] rfl ?_
    rw [List.append_nil]
    exact .unassigned hx
  · rename_i r2 h2 hequals
    obtain ⟨e, he, hr1⟩ := accept?_eq_some hequals
    have hy := readAssign_reads stop r2
    exact .accepted hr1 (hy.last fun y used' r3 h3 hy => ⟨_, _, rfl, .assignment hx he hy⟩)
  termination_by 10 * ts.length + 6

theorem readBinary_reads (stop power : Nat) (ts : List Token) :
    Reads stop ts (fun x used rest => 1 ≤ power → power ≤ 7 →
      Derives (.operation power x) used ∧ NoTighter (power - 1) rest) (readBinary stop power ts) := by
  rw [readBinary]
  refine (readUnary_reads stop ts).bind fun x used r1 h1 hx => ?_
  refine (readOperators_reads stop power x r1).last fun y used' r2 h2 hy => ⟨_, _, rfl, ?_⟩
  intro hpos hle
  refine hy hpos hle (Nat.le_refl 7) hx ?_
  intro t _ _ k hk
  exact Nat.le_succ_of_le (binaryPower_bounds hk).2
  termination_by 10 * ts.length + 5

/-- The loop over operators.  What has been read so far is an operation of some level, and the next
    operator does not bind tighter than that. -/
theorem readOperators_reads (stop power : Nat) (x : Expr) (ts : List Token) :
    Reads stop ts (fun y used rest => ∀ {level front}, 1 ≤ power → power ≤ level → level ≤ 7 →
      Derives (.operation level x) front → NoTighter level ts →
      Derives (.operation power y) (front ++ used) ∧ NoTighter (power - 1) rest)
      (readOperators stop power x ts) := by
  cases ts with
  | nil =>
    rw [readOperators]
    refine .ok [] rfl fun hpos hle hlevel hx _ => ⟨?_, nofun⟩
    rw [List.append_nil]
    exact hx.loosen hpos hle hlevel
  | cons t tail =>
    rw [readOperators]
    split
    · rename_i hnone
      refine .ok [] rfl fun hpos hle hlevel hx _ => ⟨?_, ?_⟩
      · rw [List.append_nil]
        exact hx.loosen hpos hle hlevel
      · rintro _ ⟨⟩ - k hk
        rw [hnone] at hk
        cases hk
    rename_i k hk
    split
    · rename_i hop
      rw [Bool.and_eq_true, beq_iff_eq, decide_eq_true_eq] at hop
      refine .accepted rfl ((readBinary_reads stop (k + 1) tail).bind fun y used r1 h1 hy => ?_)
      refine (readOperators_reads stop power (.binary t.text x y) r1).last
        fun z used' r2 h2 hz => ⟨_, _, rfl, ?_⟩
      intro level front hpos hle hlevel hx hnext
      have hbounds := binaryPower_bounds hk
      -- the operation in front is one of the operator's own level
      have hleft := hx.loosen hbounds.1 (hnext t rfl hop.1 k hk) hlevel
      obtain ⟨hright, hbehind⟩ := hy (by omega) (by omega)
      have hgrown := Derives.binary hop.1 hk hleft hright
      simpa using hz hpos hop.2 (by omega) hgrown hbehind
    · rename_i hop
      refine .ok [] rfl fun hpos hle hlevel hx _ => ⟨?_, ?_⟩
      · rw [List.append_nil]
        exact hx.loosen hpos hle hlevel
      · rintro _ ⟨⟩ hkind l hl
        cases hk.symm.trans hl
        simp only [hkind, beq_self_eq_true, Bool.true_and, decide_eq_true_eq] at hop
        omega
  termination_by 10 * ts.length
  decreasing_by all_goals (try simp only [List.length_cons] at *); all_goals omega

theorem readUnary_reads (stop : Nat) (ts : List Token) :
    Reads stop ts (fun x used _ => Derives (.operation 7 x) used) (readUnary stop ts) := by
  cases ts with
  | nil =>
    rw [readUnary]
    exact .refused rfl
  | cons t tail =>
    rw [readUnary]
    split
    · rename_i hop
      exact .accepted rfl ((readUnary_reads stop tail).last fun x used r1 h1 hx =>
        ⟨_, _, rfl, .unary hop hx⟩)
    · rename_i hop
      refine (readPrimary_reads stop (t :: tail)).bind fun x used r1 h1 hx => ?_
      refine (readPostfix_reads stop x r1).last fun y used' r2 h2 hy => ⟨_, _, rfl, ?_⟩
      have hprimary := hx t rfl (Bool.eq_false_iff.mpr hop)
      exact .plain (hy (.unsuffixed hprimary))
  termination_by 10 * ts.length + 4
  decreasing_by all_goals (try simp only [List.length_cons] at *); all_goals omega

theorem readPostfix_reads (stop : Nat) (x : Expr) (ts : List Token) :
    Reads stop ts (fun y used _ => ∀ {front}, Derives (.suffixed x) front →
      Derives (.suffixed y) (front ++ used)) (readPostfix stop x ts) := by
  rw [readPostfix]
  split
  · rename_i r1 h1 hdot
    obtain ⟨d, hd, hts⟩ := accept?_eq_some hdot
    refine .accepted hts (.token fun t r2 h2 ht => ?_)
    refine (readPostfix_reads stop (.name t.text x none) r2).last fun y used r3 h3 hy => ⟨_, _, rfl, ?_⟩
    intro front hx
    have hkind : t.kind = .ident ∨ t.kind = .member := by simpa using ht
    simpa using hy (.property hx hd hkind)
  split
  · rename_i r1 h1 hopen
    obtain ⟨o, ho, hts⟩ := accept?_eq_some hopen
    refine .accepted hts ((readArgs_reads stop r1).bind fun args _ r2 h2 hargs => ?_)
    refine (readPostfix_reads stop (.call x args) r2).last fun y used' r3 h3 hy => ⟨_, _, rfl, ?_⟩
    intro front hx
    obtain ⟨used, c, rfl, hderives, hc⟩ := hargs
    simpa using hy (.call hx ho hderives hc)
  · refine .ok [] rfl fun hx => ?_
    rwa [List.append_nil]
  termination_by 10 * ts.length

theorem readArgs_reads (stop : Nat) (ts : List Token) :
    Reads stop ts (fun xs used _ => Closed (.args xs) used) (readArgs stop ts) := by
  rw [readArgs]
  split
  · rename_i r hclose
    obtain ⟨c, hc, hts⟩ := accept?_eq_some hclose
    exact .ok [c] hts ⟨[], c, rfl, .noArgs, hc⟩
  · exact (readArgList_reads stop ts).mono fun _ _ _ h => h.2
  termination_by 10 * ts.length + 8

theorem readArgList_reads (stop : Nat) (ts : List Token) :
    Reads stop ts (fun xs used _ => xs ≠ [] ∧ Closed (.args xs) used) (readArgList stop ts) := by
  rw [readArgList]
  refine (readAssign_reads stop ts).bind fun x used r1 h1 hx => ?_
  dsimp only
  split
  · rename_i r2 h2 hclose
    obtain ⟨c, hc, hr1⟩ := accept?_eq_some hclose
    exact .ok [c] hr1 ⟨nofun, used, c, rfl, .lastArg hx, hc⟩
  · refine .expect fun c r2 h2 hc => ?_
    refine (readArgList_reads stop r2).last fun xs _ r3 h3 hxs => ⟨_, _, rfl, nofun, ?_⟩
    obtain ⟨hne, used', d, rfl, hderives, hd⟩ := hxs
    exact ⟨used ++ c :: used', d, by simp, .moreArgs hx hc hne hderives, hd⟩
  termination_by 10 * ts.length + 7

/-- A unary operator would be read before. -/
theorem readPrimary_reads (stop : Nat) (ts : List Token) :
    Reads stop ts (fun x used _ => ∀ t ∈ ts.head?, t.isUnary = false → Derives (.primary x) used)
      (readPrimary stop ts) := by
  cases ts with
  | nil =>
    rw [readPrimary]
    exact .refused rfl
  | cons t tail =>
    rw [readPrimary]
    split
    · rename_i hkind
      exact .ok [t] rfl fun _ _ _ => .literal (.inl hkind)
    · rename_i hkind
      exact .ok [t] rfl fun _ _ _ => .literal (.inr hkind)
    · rename_i hkind
      exact .ok [t] rfl fun _ _ _ => .member hkind
    · rename_i hkind
      -- a word is an expression unless it begins a function or is an operator
      have hword : t.text ≠ "function" → ∀ u ∈ (t :: tail).head?, u.isUnary = false →
          Derives (.primary (wordExpr t.text)) [t] := by
        rintro hfunction _ ⟨⟩ hunary
        refine .word hkind hfunction fun htext => ?_
        simp [Token.isUnary, hkind, htext] at hunary
      split
      · rename_i hthis
        rw [beq_iff_eq] at hthis
        have hexpr : wordExpr t.text = .this := by rw [hthis]; rfl
        rw [hexpr] at hword
        exact .ok [t] rfl (hword (by rw [hthis]; decide))
      split
      · rename_i hliteral
        simp only [Bool.or_eq_true, beq_iff_eq, or_assoc] at hliteral
        rw [wordExpr_literal hliteral] at hword
        refine .ok [t] rfl (hword fun htext => ?_)
        rw [htext] at hliteral
        exact absurd hliteral (by decide)
      split
      · rename_i hfunction
        refine .accepted rfl ((readFunction_reads stop tail).last fun f used r1 h1 hf =>
          ⟨_, _, rfl, fun _ _ _ => hf t ?_⟩)
        simp_all [Token.is]
      · rename_i hthis hliteral hfunction
        have hexpr : wordExpr t.text = .name t.text .absent none := by simp_all [wordExpr]
        rw [hexpr] at hword
        exact .ok [t] rfl (hword (by simpa using hfunction))
    · rename_i hkind
      split
      · rename_i hopen
        have ht : t.is "(" = true := by simp_all [Token.is]
        refine .accepted rfl ((readAssign_reads stop tail).bind fun x used r1 h1 hx => ?_)
        refine .expect fun c r2 h2 hc => ?_
        exact .ok [] rfl fun _ _ _ => .parens ht hx hc
      · exact .refused rfl
  termination_by 10 * ts.length + 3
  decreasing_by all_goals (try simp only [List.length_cons] at *); all_goals omega

theorem readFunction_reads (stop : Nat) (ts : List Token) :
    Reads stop ts (fun f used _ => ∀ k : Token, k.is "function" = true →
      Derives (.primary (.func f)) (k :: used)) (readFunction stop ts) := by
  rw [readFunction]
  cases hname : tokenOf stop [.ident] .unexpected ts with
  | error =>
    refine .expect fun o r1 h1 ho => ?_
    refine (readParams_reads stop r1).bind fun ps us r2 h2 hps => ?_
    refine (readBlock_reads stop r2).last fun ss bs r3 h3 hss => ⟨_, _, rfl, fun k hk => ?_⟩
    exact derives_func hk (.inl ⟨rfl, rfl⟩) ho hps hss
  | ok found =>
    obtain ⟨name, r0, h0⟩ := found
    have hread := Reads.ofKind stop [.ident] .unexpected ts
    rw [hname] at hread
    obtain ⟨_, hts, t, ht, htext, rfl⟩ := hread
    replace hts : ts = t :: r0 := hts
    have hnaming : Naming name [t] := .inr ⟨t, by simpa using ht, htext, rfl⟩
    refine .accepted hts (.expect fun o r1 h1 ho => ?_)
    refine (readParams_reads stop r1).bind fun ps us r2 h2 hps => ?_
    refine (readBlock_reads stop r2).last fun ss bs r3 h3 hss => ⟨_, _, rfl, fun k hk => ?_⟩
    exact derives_func hk hnaming ho hps hss
  termination_by 10 * ts.length

end

/-! ## Section 4: Accepted fragments -/

theorem readFragment_derives (h : readFragment source params = .ok f) :
    ∃ tokens stop ss, lex source = .ok ⟨tokens, stop⟩ ∧ Derives (.stmts ss) tokens ∧
      f = .declaring "" params (.block ss) := by
  unfold readFragment at h
  obtain ⟨⟨tokens, stop⟩, hlex, h⟩ := bind_eq_ok.mp h
  obtain ⟨⟨ss, rest, hr⟩, hss, h⟩ := bind_eq_ok.mp h
  cases h
  have hread := readStmts_reads stop none tokens
  rw [hss] at hread
  obtain ⟨used, hused, hderives, hstop⟩ := hread
  -- with no closing token the statements are read to the end
  rcases hstop with ⟨-, rfl⟩ | ⟨t, tail, -, -, hcloser⟩
  · rw [List.append_nil] at hused
    exact ⟨tokens, stop, ss, hlex, hused ▸ hderives, rfl⟩
  · cases hcloser

/-- The statements of a source are read when it has been cut, and then its names are resolved. -/
theorem parse_of_lex {s : TokenStream} (h : lex source = .ok s) (chain : Chain) :
    parse source params chain = (readStmts s.stop none s.tokens).map fun x =>
      (Function.declaring "" params (.block x.1)).bind chain := by
  rw [parse_eq, readFragment, h]
  show (readStmts s.stop none s.tokens >>= _) >>= _ = _
  cases readStmts s.stop none s.tokens <;> rfl

/-- A tree that has been read holds no resolved name. -/
theorem unbound_of_readFragment (h : readFragment source params = .ok f) : f.unbound = f := by
  obtain ⟨tokens, stop, ss, -, hderives, rfl⟩ := readFragment_derives h
  have hbody : stmtsUnbound ss = ss := hderives.isUnbound
  show Function.declaring "" params (.block (stmtsUnbound ss)) = .declaring "" params (.block ss)
  rw [hbody]

/-- An accepted fragment has been read, and then its names have been resolved. -/
theorem readFragment_of_parse {chain chain' : Chain}
    (h : parse source params chain = .ok (f, chain')) :
    ∃ g, readFragment source params = .ok g ∧ g.bind chain = (f, chain') ∧ f.unbound = g := by
  rw [parse_eq] at h
  obtain ⟨g, hg, h⟩ := bind_eq_ok.mp h
  have hbind : g.bind chain = (f, chain') := Except.ok.inj h
  refine ⟨g, hg, hbind, ?_⟩
  calc f.unbound = (g.bind chain).1.unbound := by rw [hbind]
    _ = g.unbound := unbound_bind g chain
    _ = g := unbound_of_readFragment hg

/-- Of the names in an accepted fragment exactly the unqualified script names have a level, and the
    bodies of its functions are blocks. -/
theorem parse_bound {chain chain' : Chain} (h : parse source params chain = .ok (f, chain')) :
    f.Bound ∧ f.Blocks := by
  obtain ⟨g, hg, hbind, -⟩ := readFragment_of_parse h
  obtain ⟨tokens, stop, ss, -, hderives, rfl⟩ := readFragment_derives hg
  have hraw : StmtsRaw ss := hderives.isRaw
  have hbinds := binds_bindFunction (chain.inner.map Scope.names) (.declaring "" params (.block ss))
    chain.root.names
  cases hbind
  exact hbinds.bound ⟨hraw, trivial⟩

/-- The tokens of an accepted fragment are a phrase of the grammar, all of them and in their order,
    and the tree of that phrase is the one that was read. -/
theorem parse_derives {source : String} {params : List String} {chain chain' : Chain} {f : Function}
    (h : parse source params chain = .ok (f, chain')) :
    ∃ tokens stop ss, lex source = .ok ⟨tokens, stop⟩ ∧ Derives (.stmts ss) tokens ∧
      f.unbound = .declaring "" params (.block ss) := by
  obtain ⟨g, hg, -, hunbound⟩ := readFragment_of_parse h
  obtain ⟨tokens, stop, ss, hlex, hderives, rfl⟩ := readFragment_derives hg
  exact ⟨tokens, stop, ss, hlex, hderives, hunbound⟩

/-- A fragment with operators of three levels, a trailing comma and left out semicolons. -/
theorem parse_derives_example :
    let source := "var x = a + b * -c(1).d if (x) return x; else return function (y,) \x7b;\x7d"
    ∃ f chain', parse source ["a"] .empty = .ok (f, chain') ∧
      ∃ tokens stop ss, lex source = .ok ⟨tokens, stop⟩ ∧ Derives (.stmts ss) tokens ∧
        f.unbound = .declaring "" ["a"] (.block ss) := by
  intro source
  have hok : (parse source ["a"] .empty).isOk = true := by decide +kernel
  cases hparse : parse source ["a"] .empty with
  | error => rw [hparse] at hok; cases hok
  | ok found => exact ⟨found.1, found.2, rfl, parse_derives hparse⟩

end DefaultLowering.Fragment
