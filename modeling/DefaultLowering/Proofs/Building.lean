import DefaultLowering.Proofs.Declaring
import DefaultLowering.Proofs.Fitting

/-!
# Built bodies fit

What is built for a method from a description of its body fits the method, and can be relocated and
turned over in either order.

- `Built`: what is known of a built expression.  It fits, every call of an instance method has a
  receiver, a receiver that the description does not name stands where the call stands, and what makes
  an object can do so;
- `buildExpr_built`, `buildStmts_built`, `buildBody_built`: this holds of what is built.
-/

namespace DefaultLowering.Description

open Program

/-- Described expressions hold lists of expressions; the hypothesis covers every argument. -/
@[elab_as_elim]
theorem Expr.induction {motive : Expr → Prop} (absent : motive .absent)
    (constant : ∀ line value type, motive (.constant line value type))
    (name : ∀ line text, motive (.name line text)) (missing : ∀ line, motive (.missing line))
    (record : ∀ line literal type call receiver args, motive receiver → (∀ x ∈ args, motive x) →
      motive (.record line literal type call receiver args))
    (notAnExpr : ∀ line, motive (.notAnExpr line))
    (unreadable : ∀ line report, motive (.unreadable line report)) (x : Expr) : motive x :=
  @Expr.rec motive (fun xs => ∀ x ∈ xs, motive x) absent constant name missing record notAnExpr
    unreadable (by simp) (fun _ _ hx hxs => List.forall_mem_cons.mpr ⟨hx, hxs⟩) x

/-! ## Section 1: What is built -/

/-- The methods with a receiver. -/
def takesReceiver (p : Program) (m : MethodRef) : Bool := !(p.method m).static

/-- What is built for an expression where `locals` are declared. -/
structure Built (s : Site) (locals : List Local) (y : Program.Expr) : Prop where
  fits : y.Fits s.program s.method locals
  placed : y.Placed (takesReceiver s.program)
  /-- Only the receiver of a call can be implicit. -/
  explicit : ∀ pos, y ≠ .implicitThis pos
  stands : ∀ n ∈ y.nodes fun _ => true, s.program.NodeStands s.method n

/-- What a description can name is there. -/
structure Resolves (p : Program) : Prop where
  type : ∀ name t, p.typeNamed name = some t → t ∈ p.declared
  target : ∀ call m, resolveTarget p call = .ok m → m.index < p.methods.length

section

variable {s : Site} {locals : List Local} {line : Nat} {y : Program.Expr}

theorem stands_of_nodes {n : Node} (h : y.nodes (fun _ => true) = [n])
    (hn : s.program.NodeStands s.method n) :
    ∀ n ∈ y.nodes fun _ => true, s.program.NodeStands s.method n := by
  rw [h]
  exact List.forall_mem_singleton.mpr hn

theorem buildName_built (hs : Resolves s.program) {text : String}
    (h : buildName s locals line text = .ok y) : Built s locals y ∧ y ≠ .absent := by
  simp only [buildName] at h
  split at h
  · -- `this` in an instance method
    split at h
    · rename_i t hstatic henclosing
      cases h
      exact ⟨⟨⟨hstatic, henclosing⟩, trivial, nofun, stands_of_nodes rfl trivial⟩, nofun⟩
    · cases h
  · split at h
    · -- a new object
      split at h
      · cases h
      · rename_i t ht
        split at h
        · cases h
        · rename_i hclass
          cases h
          simp only [Bool.or_eq_true, not_or, Bool.not_eq_true] at hclass
          exact ⟨⟨trivial, trivial, nofun, stands_of_nodes rfl ⟨hs.type _ t ht, hclass⟩⟩, nofun⟩
    · split at h
      · -- a local that is declared
        rename_i v hv
        cases h
        exact ⟨⟨List.mem_of_find?_eq_some hv, trivial, nofun, stands_of_nodes rfl trivial⟩, nofun⟩
      · -- a parameter of the method
        split at h
        · rename_i q hq
          cases h
          obtain ⟨i, hi, rfl⟩ := Option.map_eq_some_iff.mp hq
          have hlt := (List.findIdx?_eq_some_iff_getElem.mp hi).1
          exact ⟨⟨⟨rfl, hlt⟩, trivial, nofun, stands_of_nodes rfl trivial⟩, nofun⟩
        · cases h

theorem built_literal (pos : Pos) (value : String) (type : TypeName) :
    Built s locals (.literal pos value type) :=
  ⟨trivial, trivial, nofun, stands_of_nodes rfl trivial⟩

theorem buildLiteral_built {text type : String} (h : buildLiteral s line text type = .ok y) :
    Built s locals y ∧ y ≠ .absent := by
  unfold buildLiteral at h
  split at h
  · cases h
    exact ⟨built_literal _ _ _, nofun⟩
  · split at h
    · cases h
      exact ⟨built_literal _ _ _, nofun⟩
    · cases h

/-- A receiver that is not named: there is none for a static method, and an implicit one, in an
    instance method, for any other. -/
theorem implicitReceiver_eq {target : MethodRef} (h : implicitReceiver s line target = .ok y) :
    ((s.program.method target).static = true ∧ y = .absent) ∨
      ((s.program.method target).static = false ∧ s.owner.static = false ∧
        y = .implicitThis (s.pos line)) := by
  unfold implicitReceiver at h
  split at h
  · rename_i hstatic
    cases h
    exact .inl ⟨hstatic, rfl⟩
  · rename_i htarget
    split at h
    · cases h
    · rename_i howner
      cases h
      exact .inr ⟨Bool.eq_false_iff.mpr htarget, Bool.eq_false_iff.mpr howner, rfl⟩

end

/-! ## Section 2: Expressions -/

section

variable {s : Site} {locals : List Local}

/-- What the arguments of a call are built to. -/
theorem buildExprs_ok {xs : List Expr} {ys : List Program.Expr}
    (h : buildExprs s locals xs = .ok ys) :
    ys.length = xs.length ∧ ∀ y ∈ ys, ∃ x ∈ xs, buildExpr s locals x = .ok y := by
  induction xs generalizing ys with
  | nil =>
    cases h
    exact ⟨rfl, nofun⟩
  | cons x xs ih =>
    rw [buildExprs] at h
    obtain ⟨y, hy, h⟩ := bind_eq_ok.mp h
    obtain ⟨ys', hys, h⟩ := bind_eq_ok.mp h
    cases h
    obtain ⟨hlength, hall⟩ := ih hys
    refine ⟨by rw [List.length_cons, List.length_cons, hlength], ?_⟩
    intro z hz
    rcases List.mem_cons.mp hz with rfl | hz
    · exact ⟨x, List.mem_cons_self, hy⟩
    · obtain ⟨w, hw, hbuilt⟩ := hall z hz
      exact ⟨w, List.mem_cons_of_mem _ hw, hbuilt⟩

/-- A target names a type, and a method that the type declares. -/
theorem resolveTarget_eq_ok {p : Program} {call : String} {m : MethodRef} :
    resolveTarget p call = .ok m ↔ ∃ type signature t,
      splitTarget (call.toList.filter (· != ' ')) = .ok (type, signature) ∧
        p.typeNamed type = some t ∧ p.ownMethod? t signature = some m := by
  unfold resolveTarget
  rw [bind_eq_ok]
  constructor
  · rintro ⟨⟨type, signature⟩, hsplit, h⟩
    simp only at h
    split at h
    · cases h
    next t ht =>
    split at h
    · cases h
    next k hk =>
    cases h
    exact ⟨type, signature, t, hsplit, ht, hk⟩
  · rintro ⟨type, signature, t, hsplit, ht, hm⟩
    refine ⟨(type, signature), hsplit, ?_⟩
    simp only [ht, hm]
    rfl

/-- What a call is built to, and what was checked before. -/
theorem buildCall_ok {line : Nat} {type call : String} {receiver : Expr} {args : List Expr}
    {y : Program.Expr} (h : buildExpr s locals (.record line none type call receiver args) = .ok y) :
    ∃ target r ys, y = .call (s.pos line) r target ys ∧
      resolveTarget s.program call = .ok target ∧
      ((receiver.isAbsent = true ∧ implicitReceiver s line target = .ok r) ∨
        (receiver.isAbsent = false ∧ (s.program.method target).static = false ∧
          buildExpr s locals receiver = .ok r)) ∧
      args.length = (s.program.method target).params.length ∧
      buildExprs s locals args = .ok ys := by
  rw [buildExpr] at h
  simp only at h
  split at h
  · cases h
  · cases htarget : resolveTarget s.program call with
    | error =>
      rw [htarget] at h
      cases h
    | ok target =>
      rw [htarget] at h
      simp only at h
      -- a receiver that is not written is that of the caller, if one is needed
      split at h
      · rename_i habsent
        obtain ⟨r, hr, h⟩ := bind_eq_ok.mp h
        obtain ⟨hlength, h⟩ := guard_ok h
        obtain ⟨ys, hys, h⟩ := bind_eq_ok.mp h
        cases h
        exact ⟨target, r, ys, rfl, rfl, .inl ⟨habsent, hr⟩, by simpa using hlength, hys⟩
      · rename_i habsent
        split at h
        · cases h
        · rename_i hstatic
          obtain ⟨r, hr, h⟩ := bind_eq_ok.mp h
          obtain ⟨hlength, h⟩ := guard_ok h
          obtain ⟨ys, hys, h⟩ := bind_eq_ok.mp h
          cases h
          refine ⟨target, r, ys, rfl, rfl, .inr ⟨?_, ?_, hr⟩, by simpa using hlength, hys⟩
          · exact Bool.eq_false_iff.mpr habsent
          · exact Bool.eq_false_iff.mpr hstatic

theorem buildExpr_built (hs : Resolves s.program) {x : Expr} {y : Program.Expr}
    (h : buildExpr s locals x = .ok y) :
    Built s locals y ∧ (x.isAbsent = false → y ≠ .absent) := by
  induction x using Expr.induction generalizing y with
  | absent =>
    cases h
    exact ⟨⟨trivial, trivial, nofun, List.forall_mem_nil _⟩, nofun⟩
  | constant =>
    cases h
    exact ⟨built_literal _ _ _, nofun⟩
  | name =>
    rw [buildExpr] at h
    obtain ⟨hbuilt, hpresent⟩ := buildName_built hs h
    exact ⟨hbuilt, fun _ => hpresent⟩
  | record line literal type call receiver args ihReceiver ihArgs =>
    cases literal with
    | some =>
      rw [buildExpr] at h
      split at h
      · cases h
      · obtain ⟨hbuilt, hpresent⟩ := buildLiteral_built h
        exact ⟨hbuilt, fun _ => hpresent⟩
    | none =>
      obtain ⟨target, r, ys, rfl, htarget, hreceiver, hlength, hys⟩ := buildCall_ok h
      obtain ⟨hlength', hall⟩ := buildExprs_ok hys
      have hargs : ∀ y ∈ ys, Built s locals y := by
        intro y hy
        obtain ⟨x, hx, hbuilt⟩ := hall y hy
        exact (ihArgs x hx hbuilt).1
      have hfits : AllFit s.program s.method locals ys :=
        allFit_iff.mpr fun y hy => (hargs y hy).fits
      have hplaced : PlacedAll (takesReceiver s.program) ys :=
        placedAll_iff.mpr fun y hy => (hargs y hy).placed
      have hstands : ∀ n ∈ nodesOf (fun _ => true) ys, s.program.NodeStands s.method n := by
        rw [nodesOf_eq_flatMap, List.forall_mem_flatMap]
        exact fun y hy => (hargs y hy).stands
      -- a receiver that is not written is absent or implicit, and then it stands at the call
      have hr : (r = .absent ↔ (s.program.method target).static = true) ∧
          (r.Fits s.program s.method locals ∧ r.Placed (takesReceiver s.program) ∧
            ∀ n ∈ r.nodes fun _ => true, s.program.NodeStands s.method n) ∧
          ∀ pos, r = .implicitThis pos → pos = s.pos line := by
        rcases hreceiver with ⟨-, himplicit⟩ | ⟨hpresent, hstatic, hbuilt⟩
        · rcases implicitReceiver_eq himplicit with ⟨hstatic, rfl⟩ | ⟨hstatic, howner, rfl⟩
          · exact ⟨by simp [hstatic], ⟨trivial, trivial, List.forall_mem_nil _⟩, nofun⟩
          · refine ⟨by simp [hstatic], ⟨howner, trivial, stands_of_nodes rfl trivial⟩, ?_⟩
            rintro pos ⟨⟩
            rfl
        · obtain ⟨hr, hsome⟩ := ihReceiver hbuilt
          refine ⟨by simp [hstatic, hsome hpresent], ⟨hr.fits, hr.placed, hr.stands⟩, ?_⟩
          exact fun pos hpos => absurd hpos (hr.explicit pos)
      obtain ⟨habsent, ⟨hfits', hplaced', hstands'⟩, hpos⟩ := hr
      refine ⟨⟨⟨⟨hs.target call target htarget, by rw [hlength', hlength], habsent⟩, hfits', hfits⟩,
        ⟨?_, hplaced', hplaced⟩, nofun, ?_⟩, nofun⟩
      · intro hinstance
        refine ⟨?_, hpos⟩
        intro hnone
        simp [takesReceiver, habsent.mp hnone] at hinstance
      · simp only [Expr.nodes, below, if_true, List.forall_mem_cons, List.forall_mem_append]
        exact ⟨trivial, hstands', hstands⟩
  | _ => cases h

end

/-! ## Section 3: Statements -/

section

variable {s : Site}

theorem buildRet_ok {locals locals' : List Local} {line : Nat} {x : Expr} {y : Program.Stmt}
    (h : buildStmt s locals (.ret line x) = .ok (y, locals')) :
    ∃ z, buildExpr s locals x = .ok z ∧ y = .ret (s.pos line) z ∧ locals' = locals := by
  by_cases hx : x = .absent
  · rw [hx] at h ⊢
    rw [buildStmt] at h
    split at h
    · cases h
      exact ⟨.absent, by rw [buildExpr], rfl, rfl⟩
    · cases h
  · rw [buildStmt] at h
    · obtain ⟨z, hz, h⟩ := bind_eq_ok.mp h
      cases h
      exact ⟨z, hz, rfl, rfl⟩
    · exact hx

/-- A built statement fits, and the statements behind it see the locals that it declares. -/
theorem buildStmt_built (hs : Resolves s.program) {locals locals' : List Local} {x : Stmt}
    {y : Program.Stmt} (h : buildStmt s locals x = .ok (y, locals')) :
    y.Fits s.program s.method locals ∧ y.Placed (takesReceiver s.program) ∧
      (∀ n ∈ y.nodes fun _ => true, s.program.NodeStands s.method n) ∧
      locals' = locals ++ y.declares := by
  cases x with
  | ret =>
    obtain ⟨z, hz, rfl, rfl⟩ := buildRet_ok h
    have hbuilt := (buildExpr_built hs hz).1
    refine ⟨hbuilt.fits, hbuilt.placed, ?_, (List.append_nil _).symm⟩
    simp only [Stmt.nodes, below, if_true, List.forall_mem_cons]
    exact ⟨trivial, hbuilt.stands⟩
  | expr =>
    rw [buildStmt] at h
    obtain ⟨z, hz, h⟩ := bind_eq_ok.mp h
    cases h
    have hbuilt := (buildExpr_built hs hz).1
    refine ⟨hbuilt.fits, hbuilt.placed, ?_, (List.append_nil _).symm⟩
    simp only [Stmt.nodes, below, if_true, List.forall_mem_cons]
    exact ⟨trivial, hbuilt.stands⟩
  | «local» line declLine name type init =>
    rw [buildStmt] at h
    obtain ⟨-, h⟩ := guard_ok h
    obtain ⟨hfresh, h⟩ := guard_ok h
    obtain ⟨z, hz, h⟩ := bind_eq_ok.mp h
    cases h
    have hbuilt := (buildExpr_built hs hz).1
    -- the name was checked against the parameters and the locals in front
    simp only [Bool.or_eq_true, not_or, Site.param?, Option.isSome_map, List.findIdx?_isSome,
      List.any_eq_true, beq_iff_eq] at hfresh
    refine ⟨⟨fun u hu hname => hfresh.2 ⟨u, hu, hname⟩, hbuilt.fits⟩, hbuilt.placed, ?_, rfl⟩
    simp only [Stmt.nodes, below, if_true, List.forall_mem_cons]
    exact ⟨fun q hq hname => hfresh.1 ⟨q, hq, hname⟩, hbuilt.stands⟩
  | _ => cases h

/-- Built statements fit. -/
theorem buildStmts_built (hs : Resolves s.program) {locals : List Local} {xs : List Stmt}
    {ys : List Program.Stmt} (h : buildStmts s locals xs = .ok ys) :
    StmtsFit s.program s.method locals ys ∧ StmtsPlaced (takesReceiver s.program) ys ∧
      ∀ n ∈ nodesOfStmts (fun _ => true) ys, s.program.NodeStands s.method n := by
  induction xs generalizing locals ys with
  | nil =>
    cases h
    exact ⟨trivial, trivial, List.forall_mem_nil _⟩
  | cons x xs ih =>
    rw [buildStmts] at h
    obtain ⟨⟨y, locals'⟩, hy, h⟩ := bind_eq_ok.mp h
    obtain ⟨ys', hys, h⟩ := bind_eq_ok.mp h
    cases h
    obtain ⟨hfits, hplaced, hstands, rfl⟩ := buildStmt_built hs hy
    obtain ⟨hfits', hplaced', hstands'⟩ := ih hys
    refine ⟨⟨hfits, hfits'⟩, ⟨hplaced, hplaced'⟩, ?_⟩
    rw [nodesOfStmts, List.forall_mem_append]
    exact ⟨hstands, hstands'⟩

/-- A built body is a block of statements. -/
theorem buildBody_built (hs : Resolves s.program) {d : Body} {b : Option Program.Body}
    (h : buildBody s d = .ok b) :
    b = none ∨ ∃ pos block, b = some (.code pos (some block)) ∧
      StmtsFit s.program s.method [] block.stmts ∧
      StmtsPlaced (takesReceiver s.program) block.stmts ∧
      ∀ n ∈ (Program.Body.code pos (some block)).nodes fun _ => true,
        s.program.NodeStands s.method n := by
  cases d with
  | absent =>
    cases h
    exact .inl rfl
  | notAList => cases h
  | stmts =>
    rw [buildBody] at h
    obtain ⟨ys, hys, h⟩ := bind_eq_ok.mp h
    cases h
    obtain ⟨hfits, hplaced, hstands⟩ := buildStmts_built hs hys
    refine .inr ⟨_, _, rfl, hfits, hplaced, ?_⟩
    simp only [Body.nodes, Stmt.nodes, below, if_true, List.forall_mem_cons]
    exact ⟨trivial, trivial, hstands⟩

end

end DefaultLowering.Description
