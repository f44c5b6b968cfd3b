import DefaultLowering.Program.Printer
import DefaultLowering.Proofs.Clashes
import DefaultLowering.Proofs.Frame
import DefaultLowering.Proofs.WellFormedness

/-!
# Flat names

A static call is written under the flat name of its target: the type and the name of the method with `$`
between them.  The parameter types are left out, and types and methods may have `$` in their names.  So
a flat name may stand for methods with one name in one type, such as the twins of overloaded default
methods, and for methods of two types one of which has a name that goes on from the name of the other.

- `CallsStatically`: the methods that some static call names;
- `Phases.callsStatically_iff`: after a run these are the ones from before and the twins;
- `flatName_eq_iff`: what it takes for two methods to have the same flat name;
- `FlatNamesFree`: the flat names to come are all different, which decides whether flat names tell the
  targets of static calls after the run;
- `lower_flatNamed`: the whole statement;
- `lower_overloaded`: two twins with one flat name.
-/

namespace DefaultLowering.Program

/-! ## Section 1: Static calls -/

/-- A static call of the method, which has no receiver, is among the nodes. -/
def StaticCallIn (m : MethodRef) (ns : List Node) : Prop :=
  ∃ pos args, Node.expr (.call pos .absent m args) ∈ ns

/-- A static call of the method stands in some body of the program. -/
def CallsStatically (p : Program) (m : MethodRef) : Prop :=
  ∃ k ∈ p.declaredMethods, ∃ b, (p.method k).body = some b ∧ StaticCallIn m (b.nodes fun _ => true)

/-- The method is the target of a call, static or not, in some typed body of the program. -/
def Calls (p : Program) (m : MethodRef) : Prop :=
  ∃ k b, (p.method k).body = some b ∧ b.isNative = false ∧ m ∈ b.targets

section

variable {m : MethodRef}

theorem staticCallIn_nil : ¬StaticCallIn m [] := by
  rintro ⟨pos, args, h⟩
  cases h

theorem staticCallIn_append {ns ns' : List Node} :
    StaticCallIn m (ns ++ ns') ↔ StaticCallIn m ns ∨ StaticCallIn m ns' := by
  simp only [StaticCallIn, List.mem_append, exists_or]

theorem staticCallIn_flatMap {α : Type} {f : α → List Node} {xs : List α} :
    StaticCallIn m (xs.flatMap f) ↔ ∃ x ∈ xs, StaticCallIn m (f x) := by
  simp only [StaticCallIn, List.mem_flatMap]
  constructor
  · rintro ⟨pos, args, x, hx, hmem⟩
    exact ⟨x, hx, pos, args, hmem⟩
  · rintro ⟨x, hx, pos, args, hmem⟩
    exact ⟨pos, args, x, hx, hmem⟩

/-- What is no call does not count. -/
theorem staticCallIn_cons {n : Node} {ns : List Node}
    (hn : ∀ pos args, n ≠ .expr (.call pos .absent m args)) :
    StaticCallIn m (n :: ns) ↔ StaticCallIn m ns := by
  simp only [StaticCallIn, List.mem_cons]
  refine exists₂_congr fun pos args => or_iff_right (hn pos args).symm

theorem staticCallIn_call {pos : Pos} {receiver : Expr} {target : MethodRef} {args : List Expr}
    {ns : List Node} : StaticCallIn m (.expr (.call pos receiver target args) :: ns) ↔
      (receiver = .absent ∧ target = m) ∨ StaticCallIn m ns := by
  constructor
  · rintro ⟨pos', args', hmem⟩
    rcases List.mem_cons.mp hmem with heq | hmem
    · cases heq
      exact .inl ⟨rfl, rfl⟩
    · exact .inr ⟨pos', args', hmem⟩
  · rintro (⟨rfl, rfl⟩ | ⟨pos', args', hmem⟩)
    · exact ⟨pos, args, List.mem_cons_self⟩
    · exact ⟨pos', args', List.mem_cons_of_mem _ hmem⟩

end

/-! ## Section 2: Static calls and their targets -/

section

variable {p : Program} {m k : MethodRef}

/-- In a tree that fits, the static calls are the calls of static methods. -/
theorem Expr.Fits.staticCallIn_iff {locals : List Local} {x : Expr} (h : x.Fits p k locals) :
    StaticCallIn m (x.nodes fun _ => true) ↔ m ∈ x.targets ∧ (p.method m).static = true := by
  induction x with
  | call pos receiver target args ihReceiver ihArgs =>
    obtain ⟨⟨-, -, hstatic⟩, hreceiver, hargs⟩ := h
    rw [allFit_iff] at hargs
    have hargs' : StaticCallIn m (nodesOf (fun _ => true) args) ↔
        (∃ x ∈ args, m ∈ x.targets) ∧ (p.method m).static = true := by
      rw [nodesOf_eq_flatMap, staticCallIn_flatMap]
      constructor
      · rintro ⟨x, hx, hcall⟩
        obtain ⟨hmem, hm⟩ := (ihArgs x hx (hargs x hx)).mp hcall
        exact ⟨⟨x, hx, hmem⟩, hm⟩
      · rintro ⟨⟨x, hx, hmem⟩, hm⟩
        exact ⟨x, hx, (ihArgs x hx (hargs x hx)).mpr ⟨hmem, hm⟩⟩
    -- a call that fits has a receiver exactly if its target is not static
    have hself : (receiver = .absent ∧ target = m) ↔ m = target ∧ (p.method m).static = true := by
      constructor
      · rintro ⟨hr, rfl⟩
        exact ⟨rfl, hstatic.mp hr⟩
      · rintro ⟨rfl, hm⟩
        exact ⟨hstatic.mpr hm, rfl⟩
    simp only [Expr.nodes, below, if_true, staticCallIn_call, staticCallIn_append,
      ihReceiver hreceiver, hargs', hself, mem_targets_call, or_and_right]
  | absent => simp [Expr.nodes, Expr.targets, staticCallIn_nil]
  | _ => simp [Expr.nodes, Expr.targets, StaticCallIn]

/-- Each of some statements that fit fits by itself. -/
theorem StmtsFit.fits {locals : List Local} {ss : List Stmt} (h : StmtsFit p k locals ss) :
    ∀ s ∈ ss, ∃ locals, s.Fits p k locals := by
  induction ss generalizing locals with
  | nil =>
    intro s hs
    cases hs
  | cons s ss ih =>
    obtain ⟨hs, hss⟩ := h
    exact List.forall_mem_cons.mpr ⟨⟨locals, hs⟩, ih hss⟩

theorem staticCallIn_stmts_iff {locals : List Local} {ss : List Stmt} (h : StmtsFit p k locals ss)
    (hss : ∀ s ∈ ss, ∀ locals, s.Fits p k locals →
      (StaticCallIn m (s.nodes fun _ => true) ↔ m ∈ s.targets ∧ (p.method m).static = true)) :
    StaticCallIn m (nodesOfStmts (fun _ => true) ss) ↔
      m ∈ targetsOfStmts ss ∧ (p.method m).static = true := by
  rw [nodesOfStmts_eq_flatMap, staticCallIn_flatMap, mem_targetsOfStmts]
  constructor
  · rintro ⟨s, hs, hcall⟩
    obtain ⟨locals, hfits⟩ := h.fits s hs
    obtain ⟨hmem, hm⟩ := (hss s hs locals hfits).mp hcall
    exact ⟨⟨s, hs, hmem⟩, hm⟩
  · rintro ⟨⟨s, hs, hmem⟩, hm⟩
    obtain ⟨locals, hfits⟩ := h.fits s hs
    exact ⟨s, hs, (hss s hs locals hfits).mpr ⟨hmem, hm⟩⟩

theorem Stmt.Fits.staticCallIn_iff {locals : List Local} {s : Stmt} (h : s.Fits p k locals) :
    StaticCallIn m (s.nodes fun _ => true) ↔ m ∈ s.targets ∧ (p.method m).static = true := by
  have hstmt : ∀ (s : Stmt) ns, StaticCallIn m (.stmt s :: ns) ↔ StaticCallIn m ns := by
    intro s ns
    refine staticCallIn_cons fun pos args heq => ?_
    cases heq
  induction s generalizing locals with
  | absent => simp [Stmt.nodes, Stmt.targets, staticCallIn_nil]
  | block pos ss ih =>
    simp only [Stmt.nodes, below, if_true, hstmt, Stmt.targets]
    exact staticCallIn_stmts_iff h fun s hs locals => ih s hs
  | ret =>
    simp only [Stmt.nodes, below, if_true, hstmt, Stmt.targets]
    exact Expr.Fits.staticCallIn_iff h
  | expr =>
    simp only [Stmt.nodes, below, if_true, hstmt, Stmt.targets]
    exact Expr.Fits.staticCallIn_iff h
  | decl =>
    simp only [Stmt.nodes, below, if_true, hstmt, Stmt.targets]
    exact h.2.staticCallIn_iff

/-- A fragment makes no calls of this kind. -/
theorem MethodFits.staticCallIn_iff (h : p.MethodFits k) {b : Body}
    (hbody : (p.method k).body = some b) : StaticCallIn m (b.nodes fun _ => true) ↔
      (b.isNative = false ∧ m ∈ b.targets) ∧ (p.method m).static = true := by
  rcases b with ⟨pos, block⟩ | ⟨pos, func, refs⟩
  · obtain ⟨block, rfl, hfits⟩ := h.code pos block hbody
    have hnodes : StaticCallIn m ((Body.code pos (some block)).nodes fun _ => true) ↔
        StaticCallIn m (nodesOfStmts (fun _ => true) block.stmts) := by
      simp [Body.nodes, Stmt.nodes, below, StaticCallIn]
    rw [hnodes, staticCallIn_stmts_iff hfits fun s _ _ hs => hs.staticCallIn_iff]
    exact and_congr_left fun _ => (and_iff_right rfl).symm
  · refine iff_of_false ?_ ?_
    · simp [Body.nodes, below, StaticCallIn]
    · rintro ⟨⟨hcode, -⟩, -⟩
      cases hcode

/-- The methods with static calls are the static methods that are called. -/
theorem Wired.callsStatically_iff (hp : p.Wired) (hfits : ∀ k, p.MethodFits k) :
    p.CallsStatically m ↔ p.Calls m ∧ (p.method m).static = true := by
  constructor
  · rintro ⟨k, -, b, hbody, hcall⟩
    obtain ⟨hmem, hm⟩ := ((hfits k).staticCallIn_iff hbody).mp hcall
    exact ⟨⟨k, b, hbody, hmem⟩, hm⟩
  · rintro ⟨⟨k, b, hbody, hmem⟩, hm⟩
    refine ⟨k, hp.mem_declaredMethods (lt_of_body hbody), b, hbody, ?_⟩
    exact ((hfits k).staticCallIn_iff hbody).mpr ⟨hmem, hm⟩

end

/-! ## Section 3: Calls after a run -/

section

variable {permit : Permit} {p q : Program} {m : MethodRef}

/-- A step makes calls of twins, and no others. -/
theorem Step.calls (h : Step permit p q) (hp : p.Coherent) (hq : q.Calls m) :
    p.Calls m ∨ ∃ d, q.twinOf? d = some m := by
  obtain ⟨k, b, hbody, hcode, hmem⟩ := hq
  have hext := h.extends hp
  cases h with
  | twin d hd hnone =>
    rcases body_withTwin_cases hp.toWired (lt_of_isDefault hd) hbody with
      ⟨-, rfl⟩ | ⟨-, b', hb', rfl⟩ | hsame
    · -- the default method calls its twin
      rw [targets_delegatingBody, List.mem_singleton] at hmem
      refine .inr ⟨d, ?_⟩
      rw [twinOf_withTwin hp hd hnone, if_pos rfl, hmem]
    · -- the twin calls what the default method has called
      rw [Relocation.targets_body] at hmem
      refine .inl ⟨d, b', hb', ?_, hmem⟩
      rcases b' with ⟨pos, _ | block⟩ | ⟨pos, func, refs⟩
      · rfl
      · rfl
      · cases hcode
    · exact .inl ⟨k, b, hsame, hcode, hmem⟩
  | forwarder d twin t hd htwin =>
    rcases body_withMethod_cases rfl hbody with ⟨-, hnew⟩ | hsame
    · cases hnew
      rw [targets_passingOn_params, List.mem_singleton] at hmem
      refine .inr ⟨d, ?_⟩
      rw [hmem, twinOf_eq_some, hext.isDefault]
      exact ⟨hd, hext.staticOf d twin hd htwin⟩
    · exact .inl ⟨k, b, hsame, hcode, hmem⟩
  | code j pos block hbefore hserved =>
    rcases body_withBody_cases hbefore hbody with ⟨-, rfl⟩ | hsame
    · -- each target has been replaced by its twin, if it is a default method
      rw [Body.targets, Turnover.targets_stmts] at hmem
      obtain ⟨d, hd, rfl⟩ := List.mem_map.mp hmem
      rw [turnover_target hserved d hd]
      by_cases hdefault : p.isDefault d = true
      · obtain ⟨t, ht⟩ := Option.isSome_iff_exists.mp (hserved d hd hdefault)
        refine .inr ⟨d, ?_⟩
        rw [successor, twinOf_eq_some.mpr ⟨hdefault, ht⟩, twinOf_eq_some, hext.isDefault]
        exact ⟨hdefault, hext.staticOf d t hdefault ht⟩
      · refine .inl ⟨j, _, hbefore, rfl, ?_⟩
        rw [successor, twinOf?, if_neg hdefault]
        exact hd
    · exact .inl ⟨k, b, hsame, hcode, hmem⟩
  | fragment j pos f refs name hbefore =>
    rcases body_withBody_cases hbefore hbody with ⟨-, rfl⟩ | hsame
    · cases hcode
    · exact .inl ⟨k, b, hsame, hcode, hmem⟩

theorem Steps.calls (h : Steps permit p q) (hp : p.Coherent) (hq : q.Calls m) :
    p.Calls m ∨ ∃ d, q.twinOf? d = some m := by
  refine (h.induct (P := fun q => q.Calls m → p.Calls m ∨ ∃ d, q.twinOf? d = some m) hp
    .inl ?_).2 hq
  intro q r _ hcoherent ih hstep hr
  have hext := hstep.extends hcoherent
  rcases hstep.calls hcoherent hr with hq | hnew
  · refine (ih hq).imp_right ?_
    rintro ⟨d, hd⟩
    obtain ⟨hdefault, hstatic⟩ := twinOf_eq_some.mp hd
    refine ⟨d, twinOf_eq_some.mpr ⟨?_, hext.staticOf d m hdefault hstatic⟩⟩
    rw [hext.isDefault]
    exact hdefault
  · exact .inr hnew

end

section

variable {p q : Program} {cache cache' : NameCache} {m : MethodRef}

theorem lt_of_static (h : (p.method m).static = true) : m.index < p.methods.length := by
  refine Nat.lt_of_not_le fun hle => ?_
  rw [method_of_le hle] at h
  cases h

/-- A call of a method that is no default method is kept. -/
theorem Phases.calls_of_static (h : Phases p cache q cache') (hp : p.Fresh)
    (hm : (p.method m).static = true) (hcalls : p.Calls m) : q.Calls m := by
  obtain ⟨k, b, hbody, hcode, hmem⟩ := hcalls
  rcases b with ⟨pos, _ | block⟩ | ⟨pos, func, refs⟩
  · cases hmem
  · obtain ⟨block', hbody', htargets⟩ := h.calls hp hbody
    refine ⟨q.successor k, _, hbody', rfl, ?_⟩
    rw [Body.targets, htargets]
    refine List.mem_map.mpr ⟨m, hmem, ?_⟩
    rw [successor, twinOf?, (h.steps.extends hp.toCoherent).isDefault, isDefault_eq_false (.inr hm),
      if_neg Bool.false_ne_true]
    rfl
  · cases hcode

/-- Every twin is called, by its default method at least. -/
theorem Phases.calls_twin (h : Phases p cache q cache') {d : MethodRef} (hd : q.twinOf? d = some m) :
    q.Calls m := by
  obtain ⟨hdefault, hstatic⟩ := twinOf_eq_some.mp hd
  refine ⟨d, _, (h.lowered.coherent.twin d m hdefault hstatic).delegates, rfl, ?_⟩
  rw [targets_delegatingBody]
  exact List.mem_cons_self

/-- After a run the methods with static calls are those from before and the twins. -/
theorem Phases.callsStatically_iff (h : Phases p cache q cache') (hp : p.Fresh) :
    q.CallsStatically m ↔ p.CallsStatically m ∨ ∃ d, q.twinOf? d = some m := by
  have hext := h.steps.extends hp.toCoherent
  have hfits := h.steps.fits hp.toCoherent hp.fits
  rw [h.lowered.coherent.toWired.callsStatically_iff hfits, hp.toWired.callsStatically_iff hp.fits]
  constructor
  · rintro ⟨hcalls, hstatic⟩
    by_cases hlt : m.index < p.methods.length
    · refine (h.steps.calls hp.toCoherent hcalls).imp_left fun hbefore => ⟨hbefore, ?_⟩
      rw [hext.method m hlt] at hstatic
      exact hstatic
    · -- a new method that is static is a twin
      rcases h.created hp (Nat.le_of_not_lt hlt) (lt_of_static hstatic) with htwin | ⟨d, c, -, hforwarder⟩
      · exact .inr htwin
      · rw [hforwarder.static] at hstatic
        cases hstatic
  · rintro (⟨hcalls, hstatic⟩ | ⟨d, hd⟩)
    · refine ⟨h.calls_of_static hp hstatic hcalls, ?_⟩
      rw [hext.method m (lt_of_static hstatic)]
      exact hstatic
    · exact ⟨h.calls_twin hd, (isTwin_of_twinOf hext h.lowered.coherent hd).2.static⟩

end

/-! ## Section 4: Reading flat names -/

/-- Of two texts that are the same with a `$` in each, one goes on at the `$` of the other, or they have
    it in the same place. -/
theorem append_dollar_cases {a b x y : String} {rest : List Char}
    (hb : b.toList = a.toList ++ rest) (h : '$' :: x.toList = rest ++ '$' :: y.toList) :
    (a = b ∧ x = y) ∨ ∃ rest, b = a ++ "$" ++ rest ∧ x = rest ++ "$" ++ y := by
  cases rest with
  | nil =>
    rw [List.append_nil] at hb
    exact .inl ⟨String.toList_inj.mp hb.symm, String.toList_inj.mp (List.tail_eq_of_cons_eq h)⟩
  | cons c rest =>
    rw [List.cons_append, List.cons.injEq] at h
    obtain ⟨rfl, hx⟩ := h
    refine .inr ⟨String.ofList rest, String.toList_inj.mp ?_, String.toList_inj.mp ?_⟩
    · simp [String.toList_append, hb]
    · simp [String.toList_append, hx]

theorem append_dollar_eq_iff {a b x y : String} : a ++ "$" ++ x = b ++ "$" ++ y ↔
    (a = b ∧ x = y) ∨ (∃ rest, b = a ++ "$" ++ rest ∧ x = rest ++ "$" ++ y) ∨
      ∃ rest, a = b ++ "$" ++ rest ∧ y = rest ++ "$" ++ x := by
  constructor
  · intro h
    have htexts := congrArg String.toList h
    simp only [String.toList_append, List.append_assoc] at htexts
    rcases List.append_eq_append_iff.mp htexts with ⟨rest, hb, hx⟩ | ⟨rest, ha, hy⟩
    · exact (append_dollar_cases hb hx).imp_right .inl
    · exact (append_dollar_cases ha hy).imp (fun h => ⟨h.1.symm, h.2.symm⟩) .inr
  · rintro (⟨rfl, rfl⟩ | ⟨rest, rfl, rfl⟩ | ⟨rest, rfl, rfl⟩) <;> simp only [String.append_assoc]

section

variable {p q : Program} {m k : MethodRef}

theorem Wired.flatName_eq (hp : p.Wired) (hm : m.index < p.methods.length) :
    p.flatName m = p.enclosingName m ++ "$" ++ (p.method m).name := by
  obtain ⟨t, -, ht, -⟩ := hp.owner m hm
  simp only [flatName, enclosingName, ht]

theorem Extends.flatName (hext : p.Extends q) (hp : p.Wired) (hq : q.Wired)
    (hm : m.index < p.methods.length) : q.flatName m = p.flatName m := by
  have hname : (q.method m).name = (p.method m).name := by rw [hext.method m hm]
  rw [hp.flatName_eq hm, hq.flatName_eq (Nat.lt_of_lt_of_le hm hext.length_methods),
    hext.enclosingName hm, hname]

/-- A twin has the flat name of its default method with the ending behind it. -/
theorem flatName_twin (hext : p.Extends q) (hp : p.Wired) (hq : q.Coherent) {d t : MethodRef}
    (ht : q.twinOf? d = some t) : q.flatName t = p.flatName d ++ twinEnding := by
  obtain ⟨hd, htwin⟩ := isTwin_of_twinOf hext hq ht
  have hlt := lt_of_isDefault hd
  have hname : (q.method d).name = (p.method d).name := by rw [hext.method d hlt]
  have htype : q.enclosingName t = q.enclosingName d := by
    simp only [enclosingName, htwin.enclosing]
  rw [hq.flatName_eq htwin.lt, hp.flatName_eq hlt, htwin.name, htype, hext.enclosingName hlt, hname,
    String.append_assoc, String.append_assoc, String.append_assoc]

/-- The name of the second type goes on from the name of the first, and as much as it goes on is
    found in front of the name of the first method. -/
def Straddles (p : Program) (m k : MethodRef) : Prop :=
  ∃ rest, p.enclosingName k = p.enclosingName m ++ "$" ++ rest ∧
    (p.method m).name = rest ++ "$" ++ (p.method k).name

/-- Flat names are the same for methods with one name in one type, and otherwise only for methods of
    two types one of which has a name that goes on from that of the other. -/
theorem Wired.flatName_eq_iff (hp : p.Wired) (hm : m.index < p.methods.length)
    (hk : k.index < p.methods.length) : p.flatName m = p.flatName k ↔
      (p.home m = p.home k ∧ (p.method m).name = (p.method k).name) ∨ p.Straddles m k ∨
        p.Straddles k m := by
  rw [hp.flatName_eq hm, hp.flatName_eq hk, append_dollar_eq_iff, hp.enclosingName_eq_iff hm hk]
  rfl

end

/-! ## Section 5: The specification -/

/-- Static calls under the same flat name have the same target. -/
def FlatNamesApart (p : Program) : Prop :=
  ∀ m k, p.CallsStatically m → p.CallsStatically k → p.flatName m = p.flatName k → m = k

/-- The flat names of the methods that are called statically, and those of the twins to come, are
    different. -/
structure FlatNamesFree (p : Program) : Prop where
  called : p.FlatNamesApart
  twins : ∀ d d', p.NeedsTwin d → p.NeedsTwin d' → p.flatName d = p.flatName d' → d = d'
  mixed : ∀ d m, p.NeedsTwin d → p.CallsStatically m → p.flatName m ≠ p.flatName d ++ twinEnding

/-- Names that keep flat names apart. -/
structure SeparateNames (p : Program) : Prop where
  /-- No type has a name that goes on from that of another behind a `$`. -/
  types : ∀ t ∈ p.declared, ∀ u ∈ p.declared, ∀ rest,
    (p.type u).name ≠ (p.type t).name ++ "$" ++ rest
  /-- No two static methods of a type have one name. -/
  statics : ∀ m k, p.CallsStatically m → p.CallsStatically k → p.home m = p.home k →
    (p.method m).name = (p.method k).name → m = k
  /-- No two default methods of an interface have one name. -/
  twins : ∀ d d', p.NeedsTwin d → p.NeedsTwin d' → p.home d = p.home d' →
    (p.method d).name = (p.method d').name → d = d'
  /-- No static method is named like a twin of its interface. -/
  mixed : ∀ d m, p.NeedsTwin d → p.CallsStatically m → p.home m = p.home d →
    (p.method m).name ≠ (p.method d).name ++ twinEnding

/-- What can be said of the flat names of `q`, which has come of the loaded program `p`. -/
structure FlatNamed (p q : Program) : Prop where
  /-- A static call is written under the flat name of its target. -/
  written : ∀ pos m args,
    (Expr.call pos .absent m args).render q = q.flatName m ++ renderCallArgs q args
  /-- Static calls are of the methods that were called statically before, and of twins. -/
  called_iff : ∀ m, q.CallsStatically m ↔ p.CallsStatically m ∨ ∃ d, q.twinOf? d = some m
  /-- Flat names tell the targets of static calls exactly if the flat names to come were different. -/
  apart_iff : q.FlatNamesApart ↔ p.FlatNamesFree
  /-- Static calls stand under one flat name exactly if they are of methods with one name in one type,
      or of methods of two types with names that go on from each other. -/
  same_iff : ∀ m k, q.CallsStatically m → q.CallsStatically k → (q.flatName m = q.flatName k ↔
    (q.home m = q.home k ∧ (q.method m).name = (q.method k).name) ∨ q.Straddles m k ∨
      q.Straddles k m)
  /-- So flat names tell the targets where names are separate. -/
  separate : p.SeparateNames → q.FlatNamesApart
  /-- The twins of two default methods of one interface have different flat names exactly if the
      default methods have different names. -/
  twins : ∀ d d' t t', q.twinOf? d = some t → q.twinOf? d' = some t' → p.home d = p.home d' →
    (q.flatName t = q.flatName t' ↔ (p.method d).name = (p.method d').name)

section

variable {p q : Program} {cache cache' : NameCache}

theorem lt_of_callsStatically (hp : p.Fresh) {m : MethodRef} (h : p.CallsStatically m) :
    m.index < p.methods.length :=
  lt_of_static ((hp.toWired.callsStatically_iff hp.fits).mp h).2

/-- After a run flat names are apart exactly if those to come were different. -/
theorem Phases.flatNamesApart_iff (h : Phases p cache q cache') (hp : p.Fresh) :
    q.FlatNamesApart ↔ p.FlatNamesFree := by
  have hq := h.lowered.coherent
  have hext := h.steps.extends hp.toCoherent
  have hold : ∀ m, p.CallsStatically m → q.CallsStatically m ∧ q.flatName m = p.flatName m := by
    intro m hm
    exact ⟨(h.callsStatically_iff hp).mpr (.inl hm),
      hext.flatName hp.toWired hq.toWired (lt_of_callsStatically hp hm)⟩
  have hnew : ∀ d, p.NeedsTwin d → ∃ t, q.twinOf? d = some t ∧ q.CallsStatically t ∧
      q.flatName t = p.flatName d ++ twinEnding := by
    intro d hd
    obtain ⟨t, ht⟩ := (h.needsTwin_iff hp).mp hd
    exact ⟨t, ht, (h.callsStatically_iff hp).mpr (.inr ⟨d, ht⟩), flatName_twin hext hp.toWired hq ht⟩
  constructor
  · intro hapart
    refine ⟨?_, ?_, ?_⟩
    · intro m k hm hk hsame
      refine hapart m k (hold m hm).1 (hold k hk).1 ?_
      rw [(hold m hm).2, (hold k hk).2, hsame]
    · intro d d' hd hd' hsame
      obtain ⟨t, ht, hcalled, hflat⟩ := hnew d hd
      obtain ⟨t', ht', hcalled', hflat'⟩ := hnew d' hd'
      have htt' : t = t' := hapart t t' hcalled hcalled' (by rw [hflat, hflat', hsame])
      subst htt'
      exact hq.eq_of_twinOf ht ht'
    · intro d m hd hm hsame
      obtain ⟨t, ht, hcalled, hflat⟩ := hnew d hd
      have hmt : m = t := hapart m t (hold m hm).1 hcalled (by rw [(hold m hm).2, hflat, hsame])
      -- but the twin is a new method
      have hge := h.steps.twin_new hp.toCoherent hp.statics ht
      exact absurd (lt_of_callsStatically hp hm) (Nat.not_lt.mpr (hmt ▸ hge))
  · intro hfree m k hm hk hsame
    have hmixed : ∀ d t m, q.twinOf? d = some t → p.CallsStatically m →
        q.flatName m ≠ q.flatName t := by
      intro d t m hd hm
      rw [(hold m hm).2, flatName_twin hext hp.toWired hq hd]
      exact hfree.mixed d m ((h.needsTwin_iff hp).mpr ⟨t, hd⟩) hm
    rcases (h.callsStatically_iff hp).mp hm with hm | ⟨d, hd⟩ <;>
      rcases (h.callsStatically_iff hp).mp hk with hk | ⟨d', hd'⟩
    · rw [(hold m hm).2, (hold k hk).2] at hsame
      exact hfree.called m k hm hk hsame
    · exact absurd hsame (hmixed d' k m hd' hm)
    · exact absurd hsame.symm (hmixed d m k hd hk)
    · rw [flatName_twin hext hp.toWired hq hd, flatName_twin hext hp.toWired hq hd'] at hsame
      have hdd' := hfree.twins d d' ((h.needsTwin_iff hp).mpr ⟨m, hd⟩)
        ((h.needsTwin_iff hp).mpr ⟨k, hd'⟩) ((String.append_left_inj _).mp hsame)
      rw [hdd', hd', Option.some.injEq] at hd
      exact hd.symm

/-- Texts that are the same as flat names have their `$` in the same place, where names are
    separate. -/
theorem SeparateNames.eq_of_append_dollar (hnames : p.SeparateNames) (hp : p.Wired) {m k : MethodRef}
    (hm : m.index < p.methods.length) (hk : k.index < p.methods.length) {x y : String}
    (h : p.enclosingName m ++ "$" ++ x = p.enclosingName k ++ "$" ++ y) :
    p.home m = p.home k ∧ x = y := by
  have ht := (hp.home_declared hm).1
  have hu := (hp.home_declared hk).1
  rcases append_dollar_eq_iff.mp h with ⟨htype, hxy⟩ | ⟨rest, htype, -⟩ | ⟨rest, htype, -⟩
  · exact ⟨(hp.enclosingName_eq_iff hm hk).mp htype, hxy⟩
  · rw [hp.enclosingName_eq hm, hp.enclosingName_eq hk] at htype
    exact absurd htype (hnames.types _ ht _ hu rest)
  · rw [hp.enclosingName_eq hm, hp.enclosingName_eq hk] at htype
    exact absurd htype (hnames.types _ hu _ ht rest)

/-- Separate names keep all flat names different. -/
theorem SeparateNames.flatNamesFree (hnames : p.SeparateNames) (hp : p.Fresh) :
    p.FlatNamesFree := by
  have hwired := hp.toWired
  refine ⟨?_, ?_, ?_⟩
  · intro m k hm hk hsame
    have hmlt := lt_of_callsStatically hp hm
    have hklt := lt_of_callsStatically hp hk
    rw [hwired.flatName_eq hmlt, hwired.flatName_eq hklt] at hsame
    obtain ⟨hhome, hname⟩ := hnames.eq_of_append_dollar hwired hmlt hklt hsame
    exact hnames.statics m k hm hk hhome hname
  · intro d d' hd hd' hsame
    have hlt := lt_of_isDefault hd.1
    have hlt' := lt_of_isDefault hd'.1
    rw [hwired.flatName_eq hlt, hwired.flatName_eq hlt'] at hsame
    obtain ⟨hhome, hname⟩ := hnames.eq_of_append_dollar hwired hlt hlt' hsame
    exact hnames.twins d d' hd hd' hhome hname
  · intro d m hd hm hsame
    have hlt := lt_of_isDefault hd.1
    have hmlt := lt_of_callsStatically hp hm
    -- the ending belongs to the name of the method, not to that of the type
    have htwin : p.flatName d ++ twinEnding =
        p.enclosingName d ++ "$" ++ ((p.method d).name ++ twinEnding) := by
      rw [hwired.flatName_eq hlt, String.append_assoc]
    rw [htwin, hwired.flatName_eq hmlt] at hsame
    obtain ⟨hhome, hname⟩ := hnames.eq_of_append_dollar hwired hmlt hlt hsame
    exact hnames.mixed d m hd hm hhome hname

/-- After a successful run on a loaded program static calls under the same flat name have the same
    target exactly if the flat names of the methods called so far and of the twins to come were
    different.  The twins of default methods of one interface share a flat name exactly if the default
    methods share a name. -/
theorem lower_flatNamed (hp : p.Loaded) {summary : Summary}
    (hrun : p.lower cache = ⟨q, cache', .ok summary⟩) : FlatNamed p q := by
  have hfresh := hp.fresh
  have hphases := lower_phases hfresh.toCoherent hrun
  have hq := hphases.lowered.coherent
  have hext := hphases.steps.extends hfresh.toCoherent
  have hfits := hphases.steps.fits hfresh.toCoherent hfresh.fits
  have hiff := hphases.flatNamesApart_iff hfresh
  refine ⟨fun _ _ _ => by rw [Expr.render], fun m => hphases.callsStatically_iff hfresh, hiff, ?_, ?_,
    ?_⟩
  · intro m k hm hk
    exact hq.toWired.flatName_eq_iff (lt_of_static ((hq.toWired.callsStatically_iff hfits).mp hm).2)
      (lt_of_static ((hq.toWired.callsStatically_iff hfits).mp hk).2)
  · exact fun hnames => hiff.mpr (hnames.flatNamesFree hfresh)
  · intro d d' t t' ht ht' hhome
    have hlt := lt_of_isDefault (isTwin_of_twinOf hext hq ht).1
    have hlt' := lt_of_isDefault (isTwin_of_twinOf hext hq ht').1
    rw [flatName_twin hext hfresh.toWired hq ht, flatName_twin hext hfresh.toWired hq ht',
      String.append_left_inj, hfresh.toWired.flatName_eq hlt, hfresh.toWired.flatName_eq hlt',
      (hfresh.toWired.enclosingName_eq_iff hlt hlt').mpr hhome, String.append_right_inj]

/-- Two twins of the small program have different flat names, as their default methods have. -/
theorem lower_flatNamed_greeting : ∃ q cache summary, greetingProgram.Loaded ∧
    greetingProgram.lower {} = ⟨q, cache, .ok summary⟩ ∧ FlatNamed greetingProgram q ∧
      ∃ d d' t t', q.twinOf? d = some t ∧ q.twinOf? d' = some t' ∧ q.flatName t ≠ q.flatName t' := by
  have hok : (greetingProgram.lower {}).outcome.isOk = true := by decide +kernel
  obtain ⟨summary, hrun⟩ := lower_of_isOk hok
  have htwins : ((greetingProgram.lower {}).program.twinOf? ⟨0⟩).isSome = true ∧
      ((greetingProgram.lower {}).program.twinOf? ⟨1⟩).isSome = true := by decide +kernel
  obtain ⟨t, ht⟩ := Option.isSome_iff_exists.mp htwins.1
  obtain ⟨t', ht'⟩ := Option.isSome_iff_exists.mp htwins.2
  have hnamed := lower_flatNamed greeting_loaded hrun
  refine ⟨_, _, summary, greeting_loaded, hrun, hnamed, _, _, t, t', ht, ht', ?_⟩
  rw [Ne, hnamed.twins _ _ t t' ht ht' (by decide +kernel)]
  decide +kernel

end

/-! ## Section 6: Overloaded default methods -/

/-- An interface with two default methods of one name, and a class that implements it. -/
def overloading : Description where
  version := "1.0"
  types := [
    { name := "T"
      kind := "interface"
      methods := [
        { name := "m"
          returns := "String"
          body := .stmts 4 [.ret 5 (.record 5 (some "\"a\"") "" "" .absent [])] },
        { name := "m"
          params := [{ name := "n", type := "int" }]
          returns := "String"
          body := .stmts 6 [.ret 7 (.record 7 (some "\"b\"") "" "" .absent [])] }] },
    { name := "C", implementing := ["T"] }]

/-- Their twins are both called, under one flat name. -/
theorem lower_overloaded : ∃ q cache summary, (ofDescription overloading).Loaded ∧
    (ofDescription overloading).lower {} = ⟨q, cache, .ok summary⟩ ∧ ¬q.FlatNamesApart ∧
      ∃ d d' t t', (ofDescription overloading).home d = (ofDescription overloading).home d' ∧
        q.twinOf? d = some t ∧ q.twinOf? d' = some t' ∧ t ≠ t' ∧ q.CallsStatically t ∧
          q.CallsStatically t' ∧ q.flatName t = q.flatName t' := by
  have hloaded : (ofDescription overloading).Loaded := loaded_ofDescription (by decide +kernel)
  have hok : ((ofDescription overloading).lower {}).outcome.isOk = true := by decide +kernel
  obtain ⟨summary, hrun⟩ := lower_of_isOk hok
  have hphases := lower_phases hloaded.fresh.toCoherent hrun
  have htwin : ((ofDescription overloading).lower {}).program.twinOf? ⟨0⟩ = some ⟨2⟩ := by
    decide +kernel
  have htwin' : ((ofDescription overloading).lower {}).program.twinOf? ⟨1⟩ = some ⟨4⟩ := by
    decide +kernel
  have hcalled := (hphases.callsStatically_iff hloaded.fresh).mpr (.inr ⟨_, htwin⟩)
  have hcalled' := (hphases.callsStatically_iff hloaded.fresh).mpr (.inr ⟨_, htwin'⟩)
  have hsame : ((ofDescription overloading).lower {}).program.flatName ⟨2⟩ =
      ((ofDescription overloading).lower {}).program.flatName ⟨4⟩ := by decide +kernel
  refine ⟨_, _, summary, hloaded, hrun, ?_, ⟨0⟩, ⟨1⟩, ⟨2⟩, ⟨4⟩, by decide +kernel, htwin, htwin',
    by decide, hcalled, hcalled', hsame⟩
  intro hapart
  cases hapart _ _ hcalled hcalled' hsame

end DefaultLowering.Program
