import DefaultLowering.Proofs.Acceptance
import DefaultLowering.Proofs.Coverage

/-!
# Progress of the readers

The readers get through every row of tokens, whatever stands in it.  A reader that succeeds has used some
of the tokens and leaves the others; one that fails is refused at a token or at the end.  So what is left
is an end part of the row at any time, and nothing is looked up behind the end.

The readers that go on as long as something comes next are loops.  Each is taken apart into its turns
here: what one turn does, and that the reader takes turn after turn until one of them is the last.

- `Advances`: a reading that has used a token if it succeeds;
- `Runs`: turn after turn of a loop, each of which begins behind the one before it;
- `Iterates.runs`: a loop ends if its turns advance, because fewer and fewer tokens are left;
- `parse_progresses`: what this means for a source, and where an error is reported.
-/

namespace DefaultLowering.Fragment

variable {α β : Type} {p q : List Token → Prop} {stop : Nat} {ts : List Token}

/-! ## Section 1: Readers -/

/-- The reading is refused at one of the tokens or at their end; or else it has used one of them at least,
    and leaves those that are behind. -/
def Advances (stop : Nat) (ts : List Token) (r : Found α p) : Prop :=
  Reads stop ts (fun _ used _ => used ≠ []) r

/-- Where less is left than there was, something has been used. -/
theorem Reads.advances {P : α → List Token → List Token → Prop}
    {r : Except SyntaxError (α × Rest ts)} (h : Reads stop ts P r) : Advances stop ts r := by
  cases r with
  | error => exact h
  | ok found =>
    obtain ⟨used, hused, -⟩ := h
    refine ⟨used, hused, ?_⟩
    rintro rfl
    have hless : found.2.1.length < ts.length := found.2.2
    have hlength := congrArg List.length hused
    rw [List.nil_append] at hlength
    omega

/-- What is left of the tokens.  How much that is remains to be proved. -/
abbrev Left := { _rest : List Token // True }

/-- Reads a primary phrase and the properties and argument lists that follow it. -/
def readPostfixed (stop : Nat) (ts : List Token) : Except SyntaxError (Expr × Left) := do
  let ⟨x, r1, _⟩ ← readPrimary stop ts
  let ⟨y, r2, _⟩ ← readPostfix stop x r1
  return (y, ⟨r2, trivial⟩)

theorem readPostfixed_advances (stop : Nat) (ts : List Token) :
    Advances stop ts (readPostfixed stop ts) := by
  refine (readPrimary_reads stop ts).advances.bind fun x used r1 h1 hused => ?_
  refine (readPostfix_reads stop x r1).last fun y used' r2 h2 _ => ⟨_, _, rfl, ?_⟩
  exact List.append_ne_nil_of_left_ne_nil hused _

/-! ## Section 2: Loops -/

/-- What a turn of a loop comes to: there is another turn, or it was the last.  Either way it has what has
    been read so far. -/
inductive Turn (α : Type) where
  | again (a : α)
  | last (a : α)

/-- Goes on with the loop, or ends it. -/
def Turn.follow (again last : α → β) : Turn α → β
  | .again a => again a
  | .last a => last a

/-- A turn that is not the last must have used a token. -/
def Turn.Advances (used : List Token) : Turn α → Prop
  | .again _ => used ≠ []
  | .last _ => True

/-- What a reading comes to: an error, or a result and the tokens that are left. -/
def outcome (r : Found α p) : Except SyntaxError (α × List Token) :=
  r.map fun x => (x.1, x.2.1)

section

variable (stop : Nat) (turn : α → List Token → Except SyntaxError (Turn α × Left))
  (read : α → List Token → Except SyntaxError (α × List Token))

/-- The loop, which has read `a` and is in front of the tokens, comes to an end by taking its turns.
    Every turn that is not the last uses a token, and it is a turn that is refused, at a token or at the
    end. -/
inductive Runs : α → List Token → Except SyntaxError (α × List Token) → Prop where
  | refused {a ts e} (hturn : outcome (turn a ts) = .error e)
      (he : ∃ rest, rest <:+ ts ∧ e.offset = nextOffset stop rest) : Runs a ts (.error e)
  | last {a b ts rest} (hturn : outcome (turn a ts) = .ok (.last b, rest)) (hrest : rest <:+ ts) :
      Runs a ts (.ok (b, rest))
  | again {a b ts used rest r} (hturn : outcome (turn a ts) = .ok (.again b, rest))
      (hts : ts = used ++ rest) (hused : used ≠ []) (hrest : Runs b rest r) : Runs a ts r

/-- The reader `read`, which goes on from what has been read before, is a loop of such turns. -/
structure Iterates : Prop where
  advances : ∀ a ts, Reads stop ts (fun t used _ => t.Advances used) (turn a ts)
  unrolls : ∀ a ts, read a ts = outcome (turn a ts) >>= fun x =>
    x.1.follow (read · x.2) fun b => .ok (b, x.2)

variable {stop turn read}

theorem Iterates.runs (h : Iterates stop turn read) (a : α) (ts : List Token) :
    Runs stop turn a ts (read a ts) := by
  -- by induction on the number of tokens that are left
  induction hlength : ts.length using Nat.strongRecOn generalizing a ts with
  | ind length ih =>
    have hreads := h.advances a ts
    rw [h.unrolls]
    cases hturn : turn a ts with
    | error =>
      rw [hturn] at hreads
      exact .refused (by rw [hturn]; rfl) hreads
    | ok found =>
      rw [hturn] at hreads
      obtain ⟨t, rest, hrest⟩ := found
      obtain ⟨used, hused, hsome⟩ := hreads
      replace hused : ts = used ++ rest := hused
      have houtcome : outcome (turn a ts) = .ok (t, rest) := by
        rw [hturn]
        rfl
      cases t with
      | last => exact .last houtcome ⟨used, hused.symm⟩
      | again b =>
        replace hsome : used ≠ [] := hsome
        refine .again houtcome hused hsome (ih rest.length ?_ b rest rfl)
        have hpos := List.length_pos_iff.mpr hsome
        rw [← hlength, hused, List.length_append]
        omega

end

/-- Adds what was read to what had been read before. -/
def collect (front : List α) (r : Found (List α) p) :
    Except SyntaxError (List α × List Token) :=
  r.map fun x => (front ++ x.1, x.2.1)

/-- What one turn has read comes in front of what the others read. -/
theorem collect_bind (front mid : List α) {r : Found (List α) q}
    {f : List α × { rest : List Token // q rest } → Found (List α) p}
    (hf : ∀ x, ∃ h, f x = .ok (mid ++ x.1, ⟨x.2.1, h⟩)) :
    collect front (r >>= f) = collect (front ++ mid) r := by
  cases r with
  | error => rfl
  | ok x =>
    obtain ⟨_, hx⟩ := hf x
    show collect front (f x) = .ok (front ++ mid ++ x.1, x.2.1)
    rw [hx, List.append_assoc]
    rfl

theorem outcome_bind {r : Found α q}
    {f : α × { rest : List Token // q rest } → Found α p}
    (hf : ∀ x, outcome (f x) = .ok (x.1, x.2.1)) : outcome (r >>= f) = outcome r := by
  cases r with
  | error => rfl
  | ok x => exact hf x

theorem outcome_readUnary {t : Token} (ht : t.isUnary = false) :
    outcome (readUnary stop (t :: ts)) = outcome (readPostfixed stop (t :: ts)) := by
  unfold Token.isUnary at ht
  rw [readUnary, if_neg (Bool.eq_false_iff.mp ht), readPostfixed]
  cases readPrimary stop (t :: ts) with
  | error => rfl
  | ok =>
    rw [ok_bind, ok_bind]
    exact (outcome_bind fun _ => rfl).trans (outcome_bind fun _ => rfl).symm

/-! ## Section 3: The turns of each loop -/

/-- One statement, if the closing token does not come next.  An empty one is not kept. -/
def stmtTurn (stop : Nat) (closer : Option String) (ss : List Stmt) (ts : List Token) :
    Except SyntaxError (Turn (List Stmt) × Left) :=
  match ts with
  | [] =>
    if closer.isNone then .ok (.last ss, ⟨[], trivial⟩) else .error ⟨stop, .endOfFragment⟩
  | t :: rest =>
    if t.kind == .operator && some t.text == closer then
      .ok (.last ss, ⟨t :: rest, trivial⟩)
    else do
      let ⟨s, rest', _⟩ ← readStmt stop (t :: rest)
      match s with
      | .absent => return (.again ss, ⟨rest', trivial⟩)
      | s => return (.again (ss ++ [s]), ⟨rest', trivial⟩)

/-- An operator that binds tightly enough, and its right operand. -/
def operatorTurn (stop power : Nat) (x : Expr) (ts : List Token) :
    Except SyntaxError (Turn Expr × Left) :=
  match ts with
  | [] => .ok (.last x, ⟨[], trivial⟩)
  | t :: rest =>
    match binaryPower t.text with
    | none => .ok (.last x, ⟨t :: rest, trivial⟩)
    | some p =>
      if t.kind == .operator && power ≤ p then do
        let ⟨y, r1, _⟩ ← readBinary stop (p + 1) rest
        return (.again (.binary t.text x y), ⟨r1, trivial⟩)
      else .ok (.last x, ⟨t :: rest, trivial⟩)

/-- A property or an argument list. -/
def suffixTurn (stop : Nat) (x : Expr) (ts : List Token) : Except SyntaxError (Turn Expr × Left) :=
  match accept? "." ts with
  | some ⟨r1, _⟩ => do
    let ⟨name, r2, _⟩ ← tokenOf stop [.ident, .member] .expectedProperty r1
    return (.again (.name name x none), ⟨r2, trivial⟩)
  | none =>
    match accept? "(" ts with
    | some ⟨r1, _⟩ => do
      let ⟨args, r2, _⟩ ← readArgs stop r1
      return (.again (.call x args), ⟨r2, trivial⟩)
    | none => .ok (.last x, ⟨ts, trivial⟩)

/-- An argument, and the comma or the closing parenthesis behind it. -/
def argTurn (stop : Nat) (xs : List Expr) (ts : List Token) :
    Except SyntaxError (Turn (List Expr) × Left) := do
  let ⟨x, r1, _⟩ ← readAssign stop ts
  match accept? ")" r1 with
  | some ⟨r2, _⟩ => return (.last (xs ++ [x]), ⟨r2, trivial⟩)
  | none =>
    let ⟨r2, _⟩ ← expect stop "," r1
    return (.again (xs ++ [x]), ⟨r2, trivial⟩)

/-- A parameter, with a comma behind it if the closing parenthesis does not come next; or that
    parenthesis. -/
def paramTurn (stop : Nat) (names : List String) (ts : List Token) :
    Except SyntaxError (Turn (List String) × Left) :=
  match accept? ")" ts with
  | some ⟨r1, _⟩ => .ok (.last names, ⟨r1, trivial⟩)
  | none => do
    let ⟨name, r1, _⟩ ← tokenOf stop [.ident] .expectedParameter ts
    if nextIs ")" r1 then return (.again (names ++ [name]), ⟨r1, trivial⟩)
    else
      let ⟨r2, _⟩ ← expect stop "," r1
      return (.again (names ++ [name]), ⟨r2, trivial⟩)

theorem iterates_stmts (stop : Nat) (closer : Option String) :
    Iterates stop (stmtTurn stop closer) fun ss ts => collect ss (readStmts stop closer ts) where
  advances ss ts := by
    cases ts with
    | nil =>
      rw [stmtTurn]
      split
      · exact .ok [] rfl trivial
      · exact .refused rfl
    | cons t tail =>
      rw [stmtTurn]
      split
      · exact .ok [] rfl trivial
      · refine (readStmt_reads stop (t :: tail)).advances.last fun s used rest hrest hused => ?_
        cases s <;> exact ⟨_, _, rfl, hused⟩
  unrolls ss ts := by
    cases ts with
    | nil =>
      rw [readStmts, stmtTurn]
      split
      · simp [collect, outcome, Except.map, Turn.follow, bind, Except.bind]
      · rfl
    | cons t tail =>
      rw [readStmts, stmtTurn]
      split
      · simp [collect, outcome, Except.map, Turn.follow, bind, Except.bind]
      cases readStmt stop (t :: tail) with
      | error => rfl
      | ok found =>
        obtain ⟨s, r1, h1⟩ := found
        show collect ss (readStmts stop closer r1 >>= _) = _
        -- an empty statement is not collected
        cases s with
        | absent => exact (collect_bind ss [] fun _ => ⟨_, rfl⟩).trans (by rw [List.append_nil]; rfl)
        | _ => exact collect_bind ss [_] fun _ => ⟨_, rfl⟩

theorem iterates_operators (stop power : Nat) : Iterates stop (operatorTurn stop power)
    fun x ts => outcome (readOperators stop power x ts) where
  advances x ts := by
    cases ts with
    | nil => exact .ok [] rfl trivial
    | cons t tail =>
      rw [operatorTurn]
      split
      · exact .ok [] rfl trivial
      split
      · refine .accepted rfl ((readBinary_reads stop _ tail).last fun y used rest hrest _ => ?_)
        exact ⟨_, _, rfl, List.cons_ne_nil _ _⟩
      · exact .ok [] rfl trivial
  unrolls x ts := by
    cases ts with
    | nil =>
      rw [readOperators]
      rfl
    | cons t tail =>
      rw [readOperators, operatorTurn]
      cases binaryPower t.text with
      | none => rfl
      | some p =>
        dsimp only
        split
        · cases readBinary stop (p + 1) tail with
          | error => rfl
          | ok found =>
            show outcome (readOperators stop power (.binary t.text x found.1) found.2.1 >>= _) = _
            exact outcome_bind fun _ => rfl
        · rfl

theorem iterates_suffixes (stop : Nat) : Iterates stop (suffixTurn stop)
    fun x ts => outcome (readPostfix stop x ts) where
  advances x ts := by
    unfold suffixTurn
    split
    · rename_i r1 h1 hdot
      obtain ⟨d, -, hts⟩ := accept?_eq_some hdot
      exact .accepted hts (.token fun t r2 h2 _ => .ok [] rfl (List.cons_ne_nil _ _))
    split
    · rename_i r1 h1 hopen
      obtain ⟨o, -, hts⟩ := accept?_eq_some hopen
      refine .accepted hts ((readArgs_reads stop r1).last fun xs used r2 h2 _ => ?_)
      exact ⟨_, _, rfl, List.cons_ne_nil _ _⟩
    · exact .ok [] rfl trivial
  unrolls x ts := by
    rw [readPostfix, suffixTurn]
    cases accept? "." ts with
    | some r1 =>
      dsimp only
      cases tokenOf stop [.ident, .member] .expectedProperty r1.1 with
      | error => rfl
      | ok => exact outcome_bind fun _ => rfl
    | none =>
      dsimp only
      cases accept? "(" ts with
      | none => rfl
      | some r1 =>
        dsimp only
        cases readArgs stop r1.1 with
        | error => rfl
        | ok => exact outcome_bind fun _ => rfl

theorem iterates_args (stop : Nat) : Iterates stop (argTurn stop)
    fun xs ts => collect xs (readArgList stop ts) where
  advances xs ts := by
    refine (readAssign_reads stop ts).advances.bind fun x used r1 h1 hused => ?_
    dsimp only
    split
    · rename_i r2 h2 hclose
      obtain ⟨c, -, hr1⟩ := accept?_eq_some hclose
      exact .ok [c] hr1 trivial
    · refine .expect fun c r2 h2 _ => .ok [] rfl ?_
      exact List.append_ne_nil_of_right_ne_nil _ (List.cons_ne_nil _ _)
  unrolls xs ts := by
    rw [readArgList, argTurn]
    cases readAssign stop ts with
    | error => rfl
    | ok found =>
      obtain ⟨x, r1, h1⟩ := found
      rw [ok_bind, ok_bind]
      dsimp only
      cases accept? ")" r1 with
      | some => rfl
      | none =>
        cases expect stop "," r1 with
        | error => rfl
        | ok => exact collect_bind xs [x] fun _ => ⟨_, rfl⟩

theorem iterates_params (stop : Nat) : Iterates stop (paramTurn stop)
    fun names ts => collect names (readParams stop ts) where
  advances names ts := by
    unfold paramTurn
    split
    · rename_i r1 h1 hclose
      obtain ⟨c, -, hts⟩ := accept?_eq_some hclose
      exact .ok [c] hts trivial
    · refine .token fun t r1 h1 _ => ?_
      dsimp only
      split
      · exact .ok [] rfl (List.cons_ne_nil _ _)
      · exact .expect fun c r2 h2 _ => .ok [] rfl (List.cons_ne_nil _ _)
  unrolls names ts := by
    rw [readParams, paramTurn]
    cases accept? ")" ts with
    | some => simp [collect, outcome, Except.map, Turn.follow, bind, Except.bind]
    | none =>
      dsimp only
      cases tokenOf stop [.ident] .expectedParameter ts with
      | error => rfl
      | ok found =>
        obtain ⟨name, r1, h1⟩ := found
        rw [ok_bind, ok_bind]
        dsimp only
        split
        · exact collect_bind names [name] fun _ => ⟨_, rfl⟩
        · cases expect stop "," r1 with
          | error => rfl
          | ok => exact collect_bind names [name] fun _ => ⟨_, rfl⟩

/-! ## Section 4: Sources -/

/-- The readers get on, whatever the tokens are. -/
structure Progresses (stop : Nat) : Prop where
  /-- Each of these uses a token if it succeeds. -/
  stmt : ∀ ts, Advances stop ts (readStmt stop ts)
  binary : ∀ power ts, Advances stop ts (readBinary stop power ts)
  unary : ∀ ts, Advances stop ts (readUnary stop ts)
  postfixed : ∀ ts, Advances stop ts (readPostfixed stop ts)
  /-- Without an operator in front, this is what `readUnary` comes to. -/
  unary_postfixed : ∀ t ts, t.isUnary = false →
    outcome (readUnary stop (t :: ts)) = outcome (readPostfixed stop (t :: ts))
  primary : ∀ ts, Advances stop ts (readPrimary stop ts)
  /-- Each of these is a loop whose turns advance. -/
  stmts : ∀ closer ss ts, Runs stop (stmtTurn stop closer) ss ts (collect ss (readStmts stop closer ts))
  operators : ∀ power x ts,
    Runs stop (operatorTurn stop power) x ts (outcome (readOperators stop power x ts))
  suffixes : ∀ x ts, Runs stop (suffixTurn stop) x ts (outcome (readPostfix stop x ts))
  args : ∀ xs ts, Runs stop (argTurn stop) xs ts (collect xs (readArgList stop ts))
  params : ∀ names ts, Runs stop (paramTurn stop) names ts (collect names (readParams stop ts))

theorem progresses (stop : Nat) : Progresses stop where
  stmt ts := (readStmt_reads stop ts).advances
  binary power ts := (readBinary_reads stop power ts).advances
  unary ts := (readUnary_reads stop ts).advances
  postfixed := readPostfixed_advances stop
  unary_postfixed _ _ := outcome_readUnary
  primary ts := (readPrimary_reads stop ts).advances
  stmts closer := (iterates_stmts stop closer).runs
  operators power := (iterates_operators stop power).runs
  suffixes := (iterates_suffixes stop).runs
  args := (iterates_args stop).runs
  params := (iterates_params stop).runs

/-- Where the tokens stand in the source, and where it ends. -/
def TokenStream.offsets (s : TokenStream) : List Nat := s.tokens.map Token.offset ++ [s.stop]

section

variable {source : String} {s : TokenStream} {params : List String} {chain : Chain} {e : SyntaxError}

/-- A fragment that can be cut is refused at a token or at the end. -/
theorem offset_mem_of_parse (hlex : lex source = .ok s) (h : parse source params chain = .error e) :
    e.offset ∈ s.offsets := by
  have hread := readStmts_reads s.stop none s.tokens
  rw [parse_of_lex hlex] at h
  cases hstmts : readStmts s.stop none s.tokens with
  | ok =>
    rw [hstmts] at h
    cases h
  | error =>
    rw [hstmts] at h hread
    cases h
    obtain ⟨rest, ⟨used, hused⟩, he⟩ := hread
    rw [he, TokenStream.offsets, ← hused]
    cases rest with
    | nil => exact List.mem_append_right _ (List.mem_singleton_self _)
    | cons =>
      refine List.mem_append_left _ (List.mem_map_of_mem ?_)
      exact List.mem_append_right _ List.mem_cons_self

theorem offset_le_of_mem (h : lex source = .ok s) {offset : Nat} (hmem : offset ∈ s.offsets) :
    offset ≤ source.utf8ByteSize := by
  have hcovers := covers_of_lex h
  rw [← hcovers.stop]
  rcases List.mem_append.mp hmem with hmem | hmem
  · obtain ⟨t, ht, rfl⟩ := List.mem_map.mp hmem
    exact Nat.le_trans (Nat.le_add_right ..) (hcovers.inside t ht)
  · exact Nat.le_of_eq (List.mem_singleton.mp hmem)

theorem offset_le_of_lex (h : lex source = .error e) : e.offset ≤ source.utf8ByteSize := by
  unfold lex at h
  split at h
  · rename_i e' hlex
    cases h
    obtain ⟨before, c, after, htext, hoffset⟩ := lexFrom_error hlex
    rw [hoffset, ← byteLength_toList, htext, Text.byteLength_append, Nat.zero_add]
    exact Nat.le_add_right _ _
  · cases h

end

/-- Reading comes to an end whatever the source is.  Each reader that succeeds has used a token, each loop
    uses a token from turn to turn, and neither gets behind the end.  A source that is not read as a tree
    is refused inside of it: where it cannot be cut, or at one of its tokens or the end. -/
theorem parse_progresses (source : String) (params : List String) (chain : Chain) :
    (∀ stop, Progresses stop) ∧
      ((∃ f chain', parse source params chain = .ok (f, chain')) ∨
        ∃ e, parse source params chain = .error e ∧ e.offset ≤ source.utf8ByteSize ∧
          (lex source = .error e ∨ ∃ s, lex source = .ok s ∧ e.offset ∈ s.offsets)) := by
  refine ⟨progresses, ?_⟩
  cases hlex : lex source with
  | error e =>
    have hparse : parse source params chain = .error e := by
      rw [parse_eq, readFragment, hlex]
      rfl
    exact .inr ⟨e, hparse, offset_le_of_lex hlex, .inl rfl⟩
  | ok s =>
    cases hparse : parse source params chain with
    | ok found => exact .inl ⟨found.1, found.2, rfl⟩
    | error e =>
      have hmem := offset_mem_of_parse hlex hparse
      exact .inr ⟨e, rfl, offset_le_of_mem hlex hmem, .inr ⟨s, rfl, hmem⟩⟩

end DefaultLowering.Fragment
