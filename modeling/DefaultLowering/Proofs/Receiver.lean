import DefaultLowering.Proofs.LexicalScope
import DefaultLowering.Proofs.Places
import DefaultLowering.Proofs.Relinking
import DefaultLowering.Proofs.Statistics

/-!
# Fragments that move to a twin

A fragment that moves from a default method to its twin speaks of its receiver as a parameter.  Which
nodes this is about is said by places: a `this` is the method's own if no function literal stands around
it, at any depth of statements, qualifiers, callees and arguments.  Every other node is what it was.

- `Label`, `labelAt`: what a node is apart from its children, and what stands at a place;
- `OwnThis`: the places of the method's own `this`;
- `label_readingReceiver`, `children_readingReceiver`: what happens to one node;
- `Function.Rebinds`: what happens to a whole fragment;
- `Program.Moves`: what is known of the fragment of a default method while twins are requested;
- `requestTwin_rebinds`: the twin of every default method has the fragment with the receiver.
-/

namespace DefaultLowering

namespace Fragment

/-! ## Section 1: What stands at a place -/

/-- What a node is, apart from its children. -/
inductive Label where
  | function (name : String) (params names : List String)
  | decl (name : String)
  | block (count : Nat)
  | exprStmt
  | ret
  | var (count : Nat)
  | cond
  | name (ident : String) (level : Option Nat)
  | call (count : Nat)
  | this
  | literal (text : String)
  | binary (op : String)
  | unary (op : String)
  | func
  deriving DecidableEq

/-- The label of a node; an absent one has none. -/
def Node.label : Node → Option Label
  | .function f => some (.function f.name f.params f.names)
  | .decl d => some (.decl d.name)
  | .stmt .absent => none
  | .stmt (.block ss) => some (.block ss.length)
  | .stmt (.expr _) => some .exprStmt
  | .stmt (.ret _) => some .ret
  | .stmt (.var ds) => some (.var ds.length)
  | .stmt (.cond _ _ _) => some .cond
  | .expr .absent => none
  | .expr (.name ident _ level) => some (.name ident level)
  | .expr (.call _ args) => some (.call args.length)
  | .expr .this => some .this
  | .expr (.literal text) => some (.literal text)
  | .expr (.binary op _ _) => some (.binary op)
  | .expr (.unary op _) => some (.unary op)
  | .expr (.func _) => some .func

/-- The label at a place below a node, none where nothing stands. -/
def labelAt (place : List Nat) (n : Node) : Option Label :=
  (nodeAt Node.children place n).bind Node.label

/-- At the place stands a `this`, and no function literal is met on the way to it. -/
def OwnThis (n : Node) (place : List Nat) : Prop :=
  nodeAt Node.children place n = some (.expr .this) ∧
    ∀ front back f, place = front ++ back → nodeAt Node.children front n ≠ some (.expr (.func f))

theorem not_ownThis_func (f : Function) (place : List Nat) : ¬ OwnThis (.expr (.func f)) place :=
  fun h => h.2 [] place f rfl rfl

/-- Below any other node, one step nearer to the place makes no difference. -/
theorem ownThis_cons {n c : Node} {i : Nat} (hn : ∀ f, n ≠ .expr (.func f))
    (hc : n.children[i]? = some c) (place : List Nat) : OwnThis n (i :: place) ↔ OwnThis c place := by
  have hstep : ∀ rest, nodeAt Node.children (i :: rest) n = nodeAt Node.children rest c := by
    intro rest
    rw [nodeAt, hc, Option.bind_some]
  unfold OwnThis
  rw [hstep]
  refine and_congr_right fun _ => ⟨?_, ?_⟩
  · intro h front back f hplace
    rw [← hstep]
    exact h (i :: front) back f (by rw [hplace, List.cons_append])
  · intro h front back f hplace
    cases front with
    | nil => exact fun hself => hn f (Option.some.inj hself)
    | cons j front =>
      rw [List.cons_append, List.cons.injEq] at hplace
      obtain ⟨rfl, hplace⟩ := hplace
      rw [hstep]
      exact h front back f hplace

/-! ## Section 2: One node -/

/-- A node with `this` read from the receiver parameter, outside function literals. -/
def Node.readingReceiver : Node → Node
  | .function (.mk name params names body) => .function (.mk name params names body.readingReceiver)
  | .decl d => .decl d.readingReceiver
  | .stmt s => .stmt s.readingReceiver
  | .expr x => .expr x.readingReceiver

theorem argsReadingReceiver_eq_map (xs : List Expr) :
    argsReadingReceiver xs = xs.map Expr.readingReceiver := by
  induction xs with
  | nil => rfl
  | cons x xs ih => rw [argsReadingReceiver, ih, List.map_cons]

theorem stmtsReadingReceiver_eq_map (ss : List Stmt) :
    stmtsReadingReceiver ss = ss.map Stmt.readingReceiver := by
  induction ss with
  | nil => rfl
  | cons s ss ih => rw [stmtsReadingReceiver, ih, List.map_cons]

/-- Every node but a `this` stays what it is. -/
theorem label_readingReceiver {n : Node} (h : n ≠ .expr .this) :
    n.readingReceiver.label = n.label := by
  cases n with
  | function f =>
    obtain ⟨name, params, names, body⟩ := f
    rfl
  | decl d =>
    obtain ⟨name, init⟩ := d
    rfl
  | stmt s =>
    cases s with
    | block =>
      simp only [Node.readingReceiver, Stmt.readingReceiver, Node.label, stmtsReadingReceiver_eq_map,
        List.length_map]
    | var => simp only [Node.readingReceiver, Stmt.readingReceiver, Node.label, List.length_map]
    | _ => rfl
  | expr x =>
    cases x with
    | this => exact absurd rfl h
    | call =>
      simp only [Node.readingReceiver, Expr.readingReceiver, Node.label, argsReadingReceiver_eq_map,
        List.length_map]
    | _ => rfl

/-- Below every node but a `this` and a function literal, the children read the receiver. -/
theorem children_readingReceiver {n : Node} (h : n ≠ .expr .this) (hn : ∀ f, n ≠ .expr (.func f)) :
    n.readingReceiver.children = n.children.map Node.readingReceiver := by
  cases n with
  | function f =>
    obtain ⟨name, params, names, body⟩ := f
    rfl
  | decl d =>
    obtain ⟨name, init⟩ := d
    rfl
  | stmt s =>
    cases s with
    | block =>
      simp only [Node.readingReceiver, Stmt.readingReceiver, Node.children,
        stmtsReadingReceiver_eq_map, List.map_map]
      rfl
    | var =>
      simp only [Node.readingReceiver, Stmt.readingReceiver, Node.children, List.map_map]
      rfl
    | _ => rfl
  | expr x =>
    cases x with
    | this => exact absurd rfl h
    | func f => exact absurd rfl (hn f)
    | call =>
      simp only [Node.readingReceiver, Expr.readingReceiver, Node.children,
        argsReadingReceiver_eq_map, List.map_map, List.map_cons]
      rfl
    | _ => rfl

/-! ## Section 3: All places -/

/-- A `this` is the method's own as far as it stands alone. -/
theorem ownThis_this (place : List Nat) : OwnThis (.expr .this) place ↔ place = [] := by
  constructor
  · intro h
    cases place with
    | nil => rfl
    | cons => cases h.1
  · rintro rfl
    refine ⟨rfl, ?_⟩
    intro front back f hplace hnode
    rw [(List.append_eq_nil_iff.mp hplace.symm).1] at hnode
    cases hnode

/-- Nothing stands below a `this`, and nothing below the parameter that it becomes. -/
theorem labelAt_receiver (i : Nat) (place : List Nat) :
    labelAt (i :: place) (.expr (.name receiverParam .absent (some 0))) = none := by
  cases i with
  | succ => rfl
  | zero =>
    cases place with
    | nil => rfl
    | cons => rfl

/-- The place of the method's own `this` is that of the parameter, and at every other place the label is
    what it was.  The induction is on the place; it stops at a `this` and at a function literal. -/
theorem nodeAt_readingReceiver (place : List Nat) (n : Node) :
    (OwnThis n place → nodeAt Node.children place n.readingReceiver =
      some (.expr (.name receiverParam .absent (some 0)))) ∧
    (¬ OwnThis n place → labelAt place n.readingReceiver = labelAt place n) := by
  induction place generalizing n with
  | nil =>
    by_cases hthis : n = .expr .this
    · subst hthis
      exact ⟨fun _ => rfl, fun hnot => absurd ((ownThis_this []).mpr rfl) hnot⟩
    · exact ⟨fun h => absurd (Option.some.inj h.1) hthis, fun _ => label_readingReceiver hthis⟩
  | cons i place ih =>
    by_cases hthis : n = .expr .this
    · subst hthis
      refine ⟨fun h => ?_, fun _ => labelAt_receiver i place⟩
      cases (ownThis_this _).mp h
    by_cases hliteral : ∃ f, n = .expr (.func f)
    · obtain ⟨f, rfl⟩ := hliteral
      exact ⟨fun h => absurd h (not_ownThis_func f _), fun _ => rfl⟩
    have hfunc : ∀ f, n ≠ .expr (.func f) := fun f hn => hliteral ⟨f, hn⟩
    have hchildren : n.readingReceiver.children[i]? = n.children[i]?.map Node.readingReceiver := by
      rw [children_readingReceiver hthis hfunc, List.getElem?_map]
    unfold labelAt
    rw [nodeAt, nodeAt, hchildren]
    cases hc : n.children[i]? with
    | none =>
      refine ⟨fun h => ?_, fun _ => rfl⟩
      have hnone := h.1
      rw [nodeAt, hc] at hnone
      cases hnone
    | some c =>
      rw [ownThis_cons hfunc hc]
      exact ih c

/-- The fragment `g` is the fragment `f` with the receiver as its first parameter, from which the own
    `this` of `f` is read. -/
structure Function.Rebinds (f g : Function) : Prop where
  name : g.name = f.name
  params : g.params = receiverParam :: f.params
  /-- The parameter is new in the scope of the function. -/
  fresh : receiverParam ∉ f.names
  names : g.names = f.names ++ [receiverParam]
  /-- Every own `this` has become a reference to the parameter, which the scope of the function itself
      declares. -/
  rebound : ∀ place, OwnThis (.stmt f.body) place → nodeAt Node.children place (.stmt g.body) =
    some (.expr (.name receiverParam .absent (some 0)))
  /-- Nothing else has changed: no `this` of a function literal, and no other node. -/
  kept : ∀ place, ¬ OwnThis (.stmt f.body) place →
    labelAt place (.stmt g.body) = labelAt place (.stmt f.body)

theorem Function.rebinds_withReceiver {f : Function} (h : receiverParam ∉ f.names) :
    f.Rebinds f.withReceiver := by
  obtain ⟨name, params, names, body⟩ := f
  exact
    { name := rfl
      params := rfl
      fresh := h
      names := if_neg h
      rebound := fun place => (nodeAt_readingReceiver place (.stmt body)).1
      kept := fun place => (nodeAt_readingReceiver place (.stmt body)).2 }

end Fragment

namespace Program

open Fragment

/-! ## Section 4: Requests -/

/-- The twin that a request is answered with. -/
def TwinRequest.twin? : TwinRequest → Option MethodRef
  | .known twin => some twin
  | .made twin _ _ => some twin
  | .failed _ _ _ => none

/-- The program after twins have been requested for some methods, one after the other. -/
def afterRequests (p : Program) (ms : List MethodRef) : Program :=
  ms.foldl (fun q m => (q.requestTwin m).program q) p

section

variable {p q : Program} {m : MethodRef} {pos : Pos} {f : Fragment.Function} {refs : List Linkage}

/-- A request leaves the program as it is, or makes the one twin that was missing. -/
theorem requestTwin_cases (hq : q.Coherent) (k : MethodRef) :
    (q.requestTwin k).program q = q ∨ (q.isDefault k = true ∧ q.staticOf? k = none ∧
      (q.requestTwin k).program q = q.withTwin k) := by
  cases hk : q.isDefault k with
  | false =>
    refine .inl ?_
    unfold requestTwin
    split
    · rfl
    · rw [hk]
      rfl
  | true =>
    rw [requestTwin_eq hq hk]
    cases hstatic : q.staticOf? k with
    | some => exact .inl rfl
    | none => exact .inr ⟨rfl, rfl, rfl⟩

/-- The fragment of the default method `m` of `p` stands in `m` as long as there is no twin, and with
    the receiver in the twin from then on. -/
structure Moves (p : Program) (m : MethodRef) (pos : Pos) (f : Fragment.Function)
    (refs : List Linkage) (q : Program) : Prop where
  coherent : q.Coherent
  grown : p.Extends q
  before : q.staticOf? m = none → q.Native m pos f refs
  after : ∀ twin, q.staticOf? m = some twin → q.Native twin pos f.withReceiver refs

/-- A twin that is made for some method. -/
theorem Moves.withTwin (h : p.Moves m pos f refs q) (hd : p.isDefault m = true) {k : MethodRef}
    (hk : q.isDefault k = true) (hnone : q.staticOf? k = none) :
    p.Moves m pos f refs (q.withTwin k) := by
  have hq := h.coherent
  have hstep : Step (.any {}) q (q.withTwin k) := .twin k hk hnone trivial
  have hmdefault : q.isDefault m = true := h.grown.isDefault ▸ hd
  have hmlt := lt_of_isDefault hmdefault
  have hstatic := staticOf_withTwin hq hk hnone hmdefault
  refine ⟨hstep.coherent hq, h.grown.trans (hstep.extends hq), ?_, ?_⟩
  · intro hbefore
    rw [hstatic] at hbefore
    split at hbefore
    · cases hbefore
    · next hmk =>
      unfold Native
      rw [method_withTwin_other hmk (ne_next_of_lt hmlt)]
      exact h.before hbefore
  · intro twin htwin
    rw [hstatic] at htwin
    unfold Native
    split at htwin
    · -- the fragment moves now
      next hmk =>
      cases htwin
      subst hmk
      have hbody : (q.method m).body = some (.native pos (some f) refs) := h.before hnone
      rw [method_withTwin_next hq.toWired hmlt]
      simp only [twinMethod, hbody, Option.map_some, Relocation.body]
    · have hne : twin ≠ k := by
        rintro rfl
        rw [hq.twin_not_default hmdefault htwin] at hk
        cases hk
      have hlt := (hq.twin m twin hmdefault htwin).lt
      rw [method_withTwin_other hne (ne_next_of_lt hlt)]
      exact h.after twin htwin

theorem Moves.requestTwin (h : p.Moves m pos f refs q) (hd : p.isDefault m = true) (k : MethodRef) :
    p.Moves m pos f refs ((q.requestTwin k).program q) := by
  rcases requestTwin_cases h.coherent k with hsame | ⟨hk, hnone, hmade⟩
  · rw [hsame]
    exact h
  · rw [hmade]
    exact h.withTwin hd hk hnone

/-- Whatever is requested, in whatever order, the fragment moves at most once. -/
theorem moves_afterRequests (hp : p.Fresh) (hd : p.isDefault m = true)
    (hbody : p.Native m pos f refs) (ms : List MethodRef) :
    p.Moves m pos f refs (p.afterRequests ms) := by
  have hstart : p.Moves m pos f refs p := by
    refine ⟨hp.toCoherent, .refl p, fun _ => hbody, ?_⟩
    intro twin htwin
    rw [staticOf_of_statics hp.statics] at htwin
    cases htwin
  exact List.foldlRecOn (motive := p.Moves m pos f refs) ms _ hstart fun q hq k _ =>
    hq.requestTwin hd k

/-- A request for a twin of a default method is answered with its twin. -/
theorem twin_requestTwin (hq : q.Coherent) (hd : q.isDefault m = true) :
    ∃ twin, (q.requestTwin m).twin? = some twin ∧
      ((q.requestTwin m).program q).staticOf? m = some twin := by
  rw [requestTwin_eq hq hd]
  cases hstatic : q.staticOf? m with
  | some twin => exact ⟨twin, rfl, hstatic⟩
  | none =>
    refine ⟨q.next, rfl, ?_⟩
    show (q.withTwin m).staticOf? m = some q.next
    rw [staticOf_withTwin hq hd hstatic hd, if_pos rfl]

/-- The scope of a fragment that was read declares the parameters and the variables of its body. -/
theorem Parsed.mem_names (h : Parsed f) (x : String) :
    x ∈ f.names ↔ x ∈ f.params ∨ f.body.Declares x := by
  obtain ⟨source, params, chain, chain', hparse⟩ := h
  have hdeclaring := (settles_of_parse hparse).declaring _ (List.mem_singleton_self _) f _ .here
  exact hdeclaring.mem_names x

end

/-- However many twins have been requested before, the twin of a default method with a fragment has the
    fragment in which the method's own `this`, and nothing else, is read from the receiver parameter,
    under the same linkage and with the same parameters behind the receiver. -/
theorem requestTwin_rebinds {p : Program} (hp : p.Loaded) {m : MethodRef} {pos : Pos}
    {f : Fragment.Function} {refs : List Linkage} (hd : p.isDefault m = true)
    (hbody : p.Native m pos f refs) (hparams : ∀ x ∈ (p.method m).params, x.name ≠ receiverParam)
    (hvars : ¬ f.body.Declares receiverParam) (ms : List MethodRef) :
    ∃ twin g, ((p.afterRequests ms).requestTwin m).twin? = some twin ∧
      (p.afterRequests (ms ++ [m])).Native twin pos g refs ∧ f.Rebinds g ∧
      ((p.afterRequests (ms ++ [m])).method twin).params =
        ⟨receiverParam, p.enclosingName m, false, (p.method m).pos⟩ :: (p.method m).params := by
  have hfresh := hp.fresh
  have hmoves := moves_afterRequests hfresh hd hbody ms
  have hmoved := moves_afterRequests hfresh hd hbody (ms ++ [m])
  obtain ⟨twin, hanswer, hstatic⟩ := twin_requestTwin hmoves.coherent
    (hmoves.grown.isDefault ▸ hd)
  have hlast : p.afterRequests (ms ++ [m]) =
      ((p.afterRequests ms).requestTwin m).program (p.afterRequests ms) := by
    rw [afterRequests, List.foldl_append]
    rfl
  rw [← hlast] at hstatic
  -- the scope of the fragment does not declare the parameter yet
  have hnew : receiverParam ∉ f.names := by
    rw [(hp.parsed hbody).mem_names, not_or]
    refine ⟨?_, hvars⟩
    obtain ⟨f', hf', hnames⟩ := (hfresh.fits m).fragment pos (some f) refs hbody
    cases hf'
    rw [hnames, List.mem_map]
    rintro ⟨x, hx, hname⟩
    exact hparams x hx hname
  have htwin := hmoved.coherent.twin m twin (hmoved.grown.isDefault ▸ hd) hstatic
  have hlt := lt_of_isDefault hd
  refine ⟨twin, f.withReceiver, hanswer, hmoved.after twin hstatic,
    Function.rebinds_withReceiver hnew, ?_⟩
  rw [htwin.params, hmoved.grown.enclosingName hlt, hmoved.grown.method m hlt]

/-- An interface with a default method whose fragment has a `this` of its own in callee and argument
    position, and one in a function literal that is called. -/
def rebinding : Description where
  version := "1.0"
  types := [
    { name := "T"
      kind := "interface"
      methods := [
        { name := "m"
          params := [{ name := "x", type := "int" }]
          returns := "Object"
          native := some "return function () \x7b return this.y; \x7d().z + this.f(x, this);" },
        { name := "n"
          returns := "String"
          body := .stmts 4 [.ret 5 (.record 5 (some "\"a\"") "" "" .absent [])] }] }]

/-- The labels at some places of the fragment of a method. -/
def fragmentLabels (p : Program) (m : MethodRef) (places : List (List Nat)) :
    List (Option Fragment.Label) :=
  places.map fun place => ((p.method m).body.bind Body.fragment?).bind fun f =>
    labelAt place (.stmt f.body)

theorem fragmentLabels_eq {p : Program} {m : MethodRef} {pos : Pos} {f : Fragment.Function}
    {refs : List Linkage} (h : p.Native m pos f refs) (places : List (List Nat)) :
    p.fragmentLabels m places = places.map fun place => labelAt place (.stmt f.body) := by
  unfold Native at h
  rw [fragmentLabels, h]
  rfl

/-- The own `this` as callee's qualifier and as argument are rebound, that of the function literal is
    not.  The twin of the other method has been requested before. -/
theorem requestTwin_rebinds_example :
    let p := ofDescription rebinding
    let places := [[0, 0, 1, 0, 0], [0, 0, 1, 2], List.replicate 10 0]
    ∃ pos f refs twin g, p.Loaded ∧ p.isDefault ⟨0⟩ = true ∧ p.Native ⟨0⟩ pos f refs ∧
      ((p.afterRequests [⟨1⟩]).requestTwin ⟨0⟩).twin? = some twin ∧
      (p.afterRequests [⟨1⟩, ⟨0⟩]).Native twin pos g refs ∧ f.Rebinds g ∧
      (places.map fun place => labelAt place (.stmt f.body)) = List.replicate 3 (some .this) ∧
      (places.map fun place => labelAt place (.stmt g.body)) =
        [some (.name receiverParam (some 0)), some (.name receiverParam (some 0)), some .this] := by
  intro p places
  have hloaded : p.Loaded := loaded_ofDescription (by decide +kernel)
  have hdefault : p.isDefault ⟨0⟩ = true := by decide +kernel
  have hnative : (p.method ⟨0⟩).body.any Body.isNative = true := by decide +kernel
  have hparams : ∀ x ∈ (p.method ⟨0⟩).params, x.name ≠ receiverParam := by decide +kernel
  obtain ⟨pos, f, refs, hbody⟩ : ∃ pos f refs, p.Native ⟨0⟩ pos f refs := by
    have hfragment := (hloaded.fresh.fits ⟨0⟩).fragment
    unfold Native
    rcases hbody : (p.method ⟨0⟩).body with _ | ⟨pos, block⟩ | ⟨pos, func, refs⟩
    · rw [hbody] at hnative
      cases hnative
    · rw [hbody] at hnative
      cases hnative
    · obtain ⟨f, rfl, -⟩ := hfragment pos func refs hbody
      exact ⟨pos, f, refs, rfl⟩
  have hvars : ¬ f.body.Declares receiverParam := by
    have hnone : (p.method ⟨0⟩).body.any (fun b =>
        b.fragment?.any fun f => receiverParam ∉ f.body.declared) = true := by decide +kernel
    unfold Native at hbody
    rw [hbody] at hnone
    rw [← f.body.mem_declared]
    simpa [Body.fragment?] using hnone
  obtain ⟨twin, g, hanswer, hmoved, hrebinds, -⟩ :=
    requestTwin_rebinds hloaded hdefault hbody hparams hvars [⟨1⟩]
  have htwin : twin = ⟨3⟩ := by
    have hknown : ((p.afterRequests [⟨1⟩]).requestTwin ⟨0⟩).twin? = some ⟨3⟩ := by decide +kernel
    exact Option.some.inj (hanswer.symm.trans hknown)
  refine ⟨pos, f, refs, twin, g, hloaded, hdefault, hbody, hanswer, hmoved, hrebinds, ?_, ?_⟩
  · rw [← fragmentLabels_eq hbody]
    decide +kernel
  · rw [← fragmentLabels_eq hmoved, htwin]
    decide +kernel

end Program

end DefaultLowering
