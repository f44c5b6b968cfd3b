import DefaultLowering.Proofs.RenamingWalk

/-!
# Traversals in place

A traversal by a visitor that keeps every node in its place is a map from the bottom up, said here without
the traversal: `Passes` goes through the children of a node in their order, puts what has become of them
into the node, and shows it to the visitor, whatever the sort of the node.

- `Node.places`, `Node.withChildren`: the children of a node with their places, and the node with others;
- `Visitor.InPlace`: visitors that may only exchange the nodes that they leave for others of their sort;
- `Passes`: the map.  It keeps a record of the addresses of the nodes that the visitor left or refused;
- `Passes.covers`: what is on the record;
- `Walk.Goes`: a walk does what the map says, and so it is for the children of every node
  (`walkExpr_rebuilds`, `walkStmt_rebuilds`, `walkFunction_rebuilds`);
- `runWalk_in_place`: and for whole trees.
-/

namespace DefaultLowering.Fragment

variable {σ : Type}

/-! ## Section 1: Children and addresses -/

/-- The nodes in a list, from the index `i` on. -/
def numbered {α : Type} (place : Nat → Place) (node : α → Node) (i : Nat) (xs : List α) :
    List (Place × Node) :=
  (xs.zipIdx i).map fun p => (place p.2, node p.1)

theorem numbered_cons {α : Type} (place : Nat → Place) (node : α → Node) (i : Nat) (x : α)
    (xs : List α) :
    numbered place node i (x :: xs) = (place i, node x) :: numbered place node (i + 1) xs := rfl

theorem map_snd_numbered {α : Type} (place : Nat → Place) (node : α → Node) (i : Nat) (xs : List α) :
    (numbered place node i xs).map Prod.snd = xs.map node := by
  rw [numbered, List.map_map, ← List.zipIdx_map_fst i xs, List.map_map]
  simp [Function.comp_def]

namespace Node

/-- The nodes one step below a node, and where they stand in it. -/
def places : Node → List (Place × Node)
  | .function (.mk _ _ _ body) => [(.functionBody, .stmt body)]
  | .decl (.mk _ init) => [(.declInit, .expr init)]
  | .stmt .absent => []
  | .stmt (.block ss) => numbered .blockStmt .stmt 0 ss
  | .stmt (.expr x) => [(.exprStmt, .expr x)]
  | .stmt (.ret x) => [(.returned, .expr x)]
  | .stmt (.var ds) => numbered .varDecl .decl 0 ds
  | .stmt (.cond test yes no) =>
    [(.condTest, .expr test), (.condYes, .stmt yes), (.condNo, .stmt no)]
  | .expr (.name _ qualifier _) => [(.qualifier, .expr qualifier)]
  | .expr (.call callee args) => (.callee, .expr callee) :: numbered .argument .expr 0 args
  | .expr (.binary _ x y) => [(.left, .expr x), (.right, .expr y)]
  | .expr (.unary _ x) => [(.operand, .expr x)]
  | .expr (.func f) => [(.funcLiteral, .function f)]
  | .expr _ => []

/-- The node with other children, of the sorts that it has. -/
def withChildren : Node → List Node → Node
  | .function (.mk name params names _), [.stmt body] => .function (.mk name params names body)
  | .decl (.mk name _), [.expr init] => .decl (.mk name init)
  | .stmt (.block _), cs => .stmt (.block (cs.filterMap stmt?))
  | .stmt (.expr _), [.expr x] => .stmt (.expr x)
  | .stmt (.ret _), [.expr x] => .stmt (.ret x)
  | .stmt (.var _), cs => .stmt (.var (cs.filterMap decl?))
  | .stmt (.cond _ _ _), [.expr test, .stmt yes, .stmt no] => .stmt (.cond test yes no)
  | .expr (.name ident _ level), [.expr q] => .expr (.name ident q level)
  | .expr (.call _ _), .expr callee :: cs => .expr (.call callee (cs.filterMap expr?))
  | .expr (.binary op _ _), [.expr x, .expr y] => .expr (.binary op x y)
  | .expr (.unary op _), [.expr x] => .expr (.unary op x)
  | .expr (.func _), [.function f] => .expr (.func f)
  | n, _ => n

/-- The scopes around the children of a node. -/
def inner : Node → Scopes → Scopes
  | .function (.mk _ _ names _), scopes => names :: scopes
  | _, scopes => scopes

/-- Nodes of the same sort. -/
inductive Alike : Node → Node → Prop
  | function (f g : Function) : Alike (.function f) (.function g)
  | decl (d e : Decl) : Alike (.decl d) (.decl e)
  | stmt (s t : Stmt) : Alike (.stmt s) (.stmt t)
  | expr (x y : Expr) : Alike (.expr x) (.expr y)

theorem Alike.refl (n : Node) : Alike n n := by
  cases n <;> constructor

theorem Alike.trans {n m k : Node} (h : Alike n m) (h' : Alike m k) : Alike n k := by
  cases h <;> cases h' <;> constructor

theorem alike_withChildren (n : Node) (cs : List Node) : Alike n (n.withChildren cs) := by
  unfold withChildren
  split
  case h_13 => exact .refl n
  all_goals constructor

theorem kind_withChildren (n : Node) (cs : List Node) : (n.withChildren cs).kind = n.kind := by
  unfold withChildren
  split <;> rfl

/-- No two children stand in the same place. -/
theorem nodup_places (n : Node) : (n.places.map Prod.fst).Nodup := by
  have hlist : ∀ {α : Type} {place : Nat → Place} (node : α → Node) (xs : List α),
      Function.Injective place → ((numbered place node 0 xs).map Prod.fst).Nodup := by
    intro α place node xs hplace
    have hplaces : (numbered place node 0 xs).map Prod.fst = (List.range' 0 xs.length).map place := by
      rw [numbered, List.map_map, ← List.zipIdx_map_snd, List.map_map]
      rfl
    rw [hplaces]
    exact List.pairwise_map.mpr ((List.nodup_range' ..).imp fun hne heq => hne (hplace heq))
  unfold places
  split
  case h_4 => exact hlist _ _ fun _ _ => Place.blockStmt.inj
  case h_7 => exact hlist _ _ fun _ _ => Place.varDecl.inj
  case h_10 =>
    refine List.nodup_cons.mpr ⟨?_, hlist _ _ fun _ _ => Place.argument.inj⟩
    simp [numbered]
  all_goals simp

end Node

/-- Where a node stands: the places that lead to it, its own as the last one. -/
abbrev Address := List Place

/-- The node stands at an address below some places.  Where a node is absent there is none. -/
def Stands (places : List (Place × Node)) : Address → Node → Prop
  | [], _ => False
  | place :: a, d => ∃ c, (place, c) ∈ places ∧ c.kind ≠ none ∧ (a = [] ∧ d = c ∨ Stands c.places a d)

section

variable {places places' : List (Place × Node)} {a b : Address} {c d : Node} {s : Place}

theorem stands_append :
    Stands (places ++ places') a d ↔ Stands places a d ∨ Stands places' a d := by
  cases a with
  | nil => simp [Stands]
  | cons => simp [Stands, or_and_right, exists_or]

theorem stands_singleton : Stands [(s, c)] a d ↔
    ∃ b, a = s :: b ∧ c.kind ≠ none ∧ (b = [] ∧ d = c ∨ Stands c.places b d) := by
  cases a with
  | nil => simp [Stands]
  | cons => simp [Stands, and_assoc]

/-- Addresses below places without a common place do not lead to each other. -/
theorem not_prefix_of_stands (hplaces : ∀ s ∈ places.map Prod.fst, s ∉ places'.map Prod.fst)
    (ha : Stands places a c) (hb : Stands places' b d) : ¬ a <+: b ∧ ¬ b <+: a := by
  cases a with
  | nil => exact ha.elim
  | cons s =>
    cases b with
    | nil => exact hb.elim
    | cons s' =>
      obtain ⟨c, hc, -⟩ := ha
      obtain ⟨d, hd, -⟩ := hb
      have hne : s ≠ s' := by
        rintro rfl
        exact hplaces s (List.mem_map_of_mem hc) (List.mem_map_of_mem hd)
      exact ⟨fun h => hne (List.cons_prefix_cons.mp h).1,
        fun h => hne (List.cons_prefix_cons.mp h).1.symm⟩

/-- A node is a child of the one a step above it, in the place at the end of its address. -/
theorem Stands.parent {s' : Place} (h : Stands places (a ++ [s, s']) d) :
    ∃ c, Stands places (a ++ [s]) c ∧ (s', d) ∈ c.places := by
  induction a generalizing places with
  | nil =>
    obtain ⟨c, hc, hkind, ⟨⟨⟩, -⟩ | ⟨d', hd, -, ⟨-, rfl⟩ | hnone⟩⟩ := h
    · exact ⟨c, ⟨c, hc, hkind, .inl ⟨rfl, rfl⟩⟩, hd⟩
    · exact hnone.elim
  | cons s₁ a ih =>
    obtain ⟨c₁, hc₁, hkind, ⟨hnil, -⟩ | hbelow⟩ := h
    · cases a <;> cases hnil
    · obtain ⟨c, hc, hd⟩ := ih hbelow
      exact ⟨c, ⟨c₁, hc₁, hkind, .inr hc⟩, hd⟩

end

/-! ## Section 2: The map -/

/-- The visitor looks at nodes, and in the place of one that it leaves it may put another one of the same
    sort, for the body of a function a block.  It enters nodes as they are. -/
structure Visitor.InPlace (v : Visitor σ) : Prop where
  replacement : ∀ slot n s, ((v.enter slot n).run s).1.replacement = none
  enter_scopes : ∀ slot n s, ((v.enter slot n).run s).2.scopes = s.scopes
  enter_fault : ∀ slot n s, ((v.enter slot n).run s).2.fault = s.fault
  leave_scopes : ∀ slot n s, ((v.leave slot n).run s).2.scopes = s.scopes
  leave_fault : ∀ slot n s, ((v.leave slot n).run s).2.fault = s.fault
  sort : ∀ slot n s, n.kind ≠ none → ((v.leave slot n).run s).1 = n ∨
    n.replaceBy ((v.leave slot n).run s).1 = .ok ((v.leave slot n).run s).1
  body : ∀ slot n s, slot.place = .functionBody → n.kind = some .block →
    ((v.leave slot n).run s).1.kind = some .block

theorem Visitor.InPlace.alike {v : Visitor σ} (hv : v.InPlace) {n : Node} (hn : n.kind ≠ none)
    (slot : Slot) (s : WalkState σ) : Node.Alike n ((v.leave slot n).run s).1 := by
  rcases hv.sort slot n s hn with h | h
  · rw [h]
    exact .refl n
  · generalize ((v.leave slot n).run s).1 = m at h ⊢
    unfold Node.replaceBy at h
    split at h <;> cases h <;> constructor

/-- What a traversal makes of some children: the nodes that it leaves in their places, the visitor's own
    state, and the addresses of the nodes that the visitor left, in their order, and of those that it did
    not want to be gone into. -/
structure Row (σ : Type) where
  nodes : List Node
  user : σ
  left : List Address
  refused : List Address

/-- The traversal passes through some children, one after the other, inside of the given scopes.  Their
    parent, of which `around` says what it is with given nodes in the places of the children, is shown to
    the visitor with what has become of those that it has passed. -/
inductive Passes (v : Visitor σ) : Scopes → (List Node → Option Node) →
    List (Place × Node) → σ → Row σ → Prop
  | done {scopes around user} : Passes v scopes around [] user ⟨[], user, [], []⟩
  | absent {scopes around place c places user r} : c.kind = none →
      Passes v scopes (fun cs => around (c :: cs)) places user r →
      Passes v scopes around ((place, c) :: places) user { r with nodes := c :: r.nodes }
  /-- A refused node is not left either, and it stays as it is. -/
  | refused {scopes around place c places user user' r} : c.kind ≠ none →
      (v.enter ⟨place, around (c :: places.map Prod.snd)⟩ c).run ⟨user, scopes, none⟩ =
        (⟨none, false⟩, ⟨user', scopes, none⟩) →
      Passes v scopes (fun cs => around (c :: cs)) places user' r →
      Passes v scopes around ((place, c) :: places) user
        { r with nodes := c :: r.nodes, refused := [place] :: r.refused }
  /-- A node is left with what has become of its children.  What the visitor makes of it is not entered. -/
  | left {scopes around place c places user user₁ below m user₂ r} : c.kind ≠ none →
      (v.enter ⟨place, around (c :: places.map Prod.snd)⟩ c).run ⟨user, scopes, none⟩ =
        (⟨none, true⟩, ⟨user₁, scopes, none⟩) →
      Passes v (c.inner scopes) (fun cs => some (c.withChildren cs)) c.places user₁ below →
      (v.leave ⟨place, around (c.withChildren below.nodes :: places.map Prod.snd)⟩
        (c.withChildren below.nodes)).run ⟨below.user, scopes, none⟩ = (m, ⟨user₂, scopes, none⟩) →
      Passes v scopes (fun cs => around (m :: cs)) places user₂ r →
      Passes v scopes around ((place, c) :: places) user
        ⟨m :: r.nodes, r.user, below.left.map (place :: ·) ++ [place] :: r.left,
          below.refused.map (place :: ·) ++ r.refused⟩

/-- The rows of some children and of those behind them. -/
def Row.append (r r' : Row σ) : Row σ :=
  ⟨r.nodes ++ r'.nodes, r'.user, r.left ++ r'.left, r.refused ++ r'.refused⟩

section

variable {v : Visitor σ} {scopes : Scopes} {around : List Node → Option Node}
  {places places' : List (Place × Node)} {user : σ} {r r' : Row σ} {place : Place} {c : Node}

/-- Those in front see the parent with the others as they were, those behind with what has become of the
    first. -/
theorem Passes.append
    (h : Passes v scopes (fun cs => around (cs ++ places'.map Prod.snd)) places user r)
    (h' : Passes v scopes (fun cs => around (r.nodes ++ cs)) places' r.user r') :
    Passes v scopes around (places ++ places') user (r.append r') := by
  generalize hfront : (fun cs => around (cs ++ places'.map Prod.snd)) = front at h
  induction h generalizing around with
  | done => exact h'
  | absent hc _ ih =>
    subst hfront
    exact .absent hc (ih h' rfl)
  | refused hc henter _ ih =>
    subst hfront
    simp only [List.cons_append, ← List.map_append] at henter
    exact .refused hc henter (ih h' rfl)
  | left hc henter hbelow hleave _ _ ih =>
    subst hfront
    simp only [List.cons_append, ← List.map_append] at henter hleave
    have hall := Passes.left hc henter hbelow hleave (ih h' rfl)
    simpa [Row.append] using hall

/-- The visitor leaves the nodes that are there, apart from those that it has refused and what is below
    them, each once and behind those below it. -/
structure Row.Covers (r : Row σ) (places : List (Place × Node)) : Prop where
  refused : ∀ a ∈ r.refused, ∃ d, Stands places a d
  left : ∀ a, a ∈ r.left ↔ (∃ d, Stands places a d) ∧ ∀ q ∈ r.refused, ¬ q <+: a
  order : r.left.Pairwise fun a b => ¬ a <+: b

theorem Row.Covers.append (h : r.Covers places) (h' : r'.Covers places')
    (hplaces : ∀ s ∈ places.map Prod.fst, s ∉ places'.map Prod.fst) :
    (r.append r').Covers (places ++ places') := by
  refine ⟨?_, ?_, ?_⟩
  · intro a ha
    rcases List.mem_append.mp ha with ha | ha
    · obtain ⟨d, hd⟩ := h.refused a ha
      exact ⟨d, stands_append.mpr (.inl hd)⟩
    · obtain ⟨d, hd⟩ := h'.refused a ha
      exact ⟨d, stands_append.mpr (.inr hd)⟩
  · intro a
    have hfront : (∃ d, Stands places a d) → ∀ q ∈ r'.refused, ¬ q <+: a := by
      rintro ⟨d, hd⟩ q hq
      obtain ⟨e, he⟩ := h'.refused q hq
      exact (not_prefix_of_stands hplaces hd he).2
    have hback : (∃ d, Stands places' a d) → ∀ q ∈ r.refused, ¬ q <+: a := by
      rintro ⟨d, hd⟩ q hq
      obtain ⟨e, he⟩ := h.refused q hq
      exact (not_prefix_of_stands hplaces he hd).1
    simp only [Row.append, List.mem_append, h.left, h'.left, stands_append, exists_or, or_imp,
      forall_and]
    tauto
  · refine List.pairwise_append.mpr ⟨h.order, h'.order, fun a ha b hb => ?_⟩
    obtain ⟨d, hd⟩ := ((h.left a).mp ha).1
    obtain ⟨e, he⟩ := ((h'.left b).mp hb).1
    exact (not_prefix_of_stands hplaces hd he).1

theorem Row.covers_absent (nodes : List Node) (user : σ) (hc : c.kind = none) :
    Row.Covers ⟨nodes, user, [], []⟩ [(place, c)] := by
  refine ⟨nofun, fun a => ?_, .nil⟩
  simp [stands_singleton, hc]

theorem Row.covers_refused (nodes : List Node) (user : σ) (hc : c.kind ≠ none) :
    Row.Covers ⟨nodes, user, [], [[place]]⟩ [(place, c)] := by
  refine ⟨?_, fun a => ?_, .nil⟩
  · rintro a (_ | ⟨_, ⟨⟩⟩)
    exact ⟨c, c, List.mem_singleton_self _, hc, .inl ⟨rfl, rfl⟩⟩
  · -- all that stands there is the node and what is below it
    refine iff_of_false nofun ?_
    rintro ⟨⟨d, hd⟩, hnot⟩
    obtain ⟨b, rfl, -⟩ := stands_singleton.mp hd
    exact hnot [place] List.mem_cons_self ⟨b, rfl⟩

theorem Row.Covers.below (place : Place) (nodes : List Node) (user : σ) (hc : c.kind ≠ none)
    (h : r.Covers c.places) :
    Row.Covers ⟨nodes, user, r.left.map (place :: ·) ++ [[place]], r.refused.map (place :: ·)⟩
      [(place, c)] := by
  refine ⟨?_, ?_, ?_⟩
  · intro a ha
    obtain ⟨b, hb, rfl⟩ := List.mem_map.mp ha
    obtain ⟨d, hd⟩ := h.refused b hb
    exact ⟨d, c, List.mem_singleton_self _, hc, .inr hd⟩
  · intro a
    have hnil : [] ∉ r.refused := fun hmem => (h.refused [] hmem).elim fun _ hd => hd
    rw [List.mem_append, List.mem_map, List.mem_singleton, List.forall_mem_map]
    simp only [stands_singleton]
    constructor
    · rintro (⟨b, hb, rfl⟩ | rfl)
      · obtain ⟨⟨d, hd⟩, hnot⟩ := (h.left b).mp hb
        exact ⟨⟨d, b, rfl, hc, .inr hd⟩, fun q hq hle => hnot q hq (List.cons_prefix_cons.mp hle).2⟩
      · refine ⟨⟨c, [], rfl, hc, .inl ⟨rfl, rfl⟩⟩, fun q hq hle => ?_⟩
        rw [List.prefix_nil.mp (List.cons_prefix_cons.mp hle).2] at hq
        exact hnil hq
    · rintro ⟨⟨d, b, rfl, -, ⟨rfl, rfl⟩ | hd⟩, hnot⟩
      · exact .inr rfl
      · refine .inl ⟨b, (h.left b).mpr ⟨⟨d, hd⟩, fun q hq hle => ?_⟩, rfl⟩
        exact hnot q hq (List.cons_prefix_cons.mpr ⟨rfl, hle⟩)
  · refine List.pairwise_append.mpr ⟨?_, List.pairwise_singleton .., ?_⟩
    · exact List.pairwise_map.mpr (h.order.imp fun hab hle => hab (List.cons_prefix_cons.mp hle).2)
    · intro a ha b hb hle
      obtain ⟨a, hmem, rfl⟩ := List.mem_map.mp ha
      rw [List.mem_singleton.mp hb, List.cons_prefix_cons, List.prefix_nil] at hle
      rw [hle.2] at hmem
      exact ((h.left []).mp hmem).1.elim fun _ hd => hd

theorem Passes.covers (h : Passes v scopes around places user r)
    (hplaces : (places.map Prod.fst).Nodup) : r.Covers places := by
  have hcons : ∀ {place : Place} {c : Node} {places : List (Place × Node)} {first rest : Row σ},
      (((place, c) :: places).map Prod.fst).Nodup → first.Covers [(place, c)] →
      rest.Covers places → (first.append rest).Covers ((place, c) :: places) := by
    intro place c places first rest hplaces hfirst hrest
    refine hfirst.append hrest fun s hs => ?_
    rw [List.mem_singleton.mp hs]
    exact (List.nodup_cons.mp hplaces).1
  induction h with
  | done => exact ⟨nofun, fun a => by cases a <;> simp [Stands], .nil⟩
  | @absent _ _ place c _ user r hc _ ih =>
    exact hcons hplaces (Row.covers_absent [c] user hc) (ih (List.nodup_cons.mp hplaces).2)
  | @refused _ _ place c _ user _ r hc _ _ ih =>
    exact hcons hplaces (Row.covers_refused [c] user hc) (ih (List.nodup_cons.mp hplaces).2)
  | @left _ _ place c _ user _ below m _ r hc _ _ _ _ ihBelow ih =>
    have hbelow := (ihBelow c.nodup_places).below place [m] user hc
    have hall := hcons hplaces hbelow (ih (List.nodup_cons.mp hplaces).2)
    simpa [Row.append] using hall

/-- Who wants to go into every node refuses none. -/
theorem Passes.refused_eq_nil (hv : ∀ slot n s, ((v.enter slot n).run s).1.descend = true)
    (h : Passes v scopes around places user r) : r.refused = [] := by
  induction h with
  | done => rfl
  | absent _ _ ih => exact ih
  | refused _ henter =>
    have hdescend : false = true := (congrArg (fun e => e.1.descend) henter).symm.trans (hv _ _ _)
    cases hdescend
  | left _ _ _ _ _ ihBelow ih => rw [ihBelow, ih, List.map_nil, List.nil_append]

end

/-! ## Section 3: Walks -/

namespace Walk

variable {α β : Type}

/-- Inside of some scopes the walk passes through children around which there are the scopes `inside` and
    the parent `around`.  Its result, and the nodes left in the places of the children, are as
    described. -/
def Goes (v : Visitor σ) (scopes inside : Scopes) (around : List Node → Option Node)
    (places : List (Place × Node)) (w : Walk σ α) (R : α → List Node → Prop) : Prop :=
  ∀ user, ∃ x r, w.run ⟨user, scopes, none⟩ = (x, ⟨r.user, scopes, none⟩) ∧
    Passes v inside around places user r ∧ R x r.nodes

/-- The walk passes through the children of a node, and gives the node with what has become of them. -/
def Rebuilds (v : Visitor σ) (scopes : Scopes) (n : Node) (w : Walk σ α)
    (node : α → Node) : Prop :=
  w.Goes v scopes (n.inner scopes) (fun cs => some (n.withChildren cs)) n.places fun x cs =>
    node x = n.withChildren cs

/-- The walk passes through a node.  What comes back for it is of its sort, and a block for a block that
    is the body of a function. -/
def Visits (v : Visitor σ) (scopes : Scopes) (around : List Node → Option Node)
    (place : Place) (n : Node) (w : Walk σ α) (node : α → Node) : Prop :=
  w.Goes v scopes scopes around [(place, n)] fun x cs => cs = [node x] ∧ Node.Alike n (node x) ∧
    (place = .functionBody → n.kind = some .block → (node x).kind = some .block)

variable {v : Visitor σ} {scopes inside : Scopes} {around : List Node → Option Node}
  {places : List (Place × Node)} {w : Walk σ α} {R : α → List Node → Prop}
  {R' : β → List Node → Prop}

theorem Goes.pure (x : α) (h : R x []) : Goes v scopes inside around [] (pure x) R :=
  fun user => ⟨x, ⟨[], user, [], []⟩, rfl, .done, h⟩

section

variable {place : Place} {n : Node} {node : α → Node}

/-- A child that is visited, and those behind it. -/
theorem Goes.cons {f : α → Walk σ β}
    (hw : w.Visits v scopes (fun cs => around (cs ++ places.map Prod.snd)) place n node)
    (hf : ∀ x, (f x).Goes v scopes scopes (fun cs => around (node x :: cs)) places
      fun y cs => R' y (node x :: cs)) :
    (w >>= f).Goes v scopes scopes around ((place, n) :: places) R' := by
  intro user
  obtain ⟨x, ⟨_, next, _, _⟩, hrun, hpasses, rfl, -⟩ := hw user
  obtain ⟨y, r, hrun', hpasses', hr⟩ := hf x next
  refine ⟨y, _, ?_, hpasses.append hpasses', hr⟩
  rw [run_bind, hrun, hrun']
  rfl

theorem Goes.map {g : α → β} (hw : w.Goes v scopes inside around places R)
    (h : ∀ x cs, R x cs → R' (g x) cs) :
    (return g (← w) : Walk σ β).Goes v scopes inside around places R' := by
  intro user
  obtain ⟨x, r, hrun, hpasses, hr⟩ := hw user
  refine ⟨g x, r, ?_, hpasses, h x r.nodes hr⟩
  rw [run_bind, hrun]
  rfl

/-- The last child. -/
theorem Goes.last {g : α → β} (hw : w.Visits v scopes around place n node)
    (h : ∀ x, R' (g x) [node x]) :
    (return g (← w) : Walk σ β).Goes v scopes scopes around [(place, n)] R' := by
  refine hw.map ?_
  rintro x _ ⟨rfl, -⟩
  exact h x

end

end Walk

section

variable {v : Visitor σ} {again : Node → Walk σ Node} {place : Place} {scopes : Scopes}
  {around : List Node → Option Node}

/-- A walk through the children of a node is made one through the node by visiting it. -/
theorem visit_visits (hv : v.InPlace) (again : Node → Walk σ Node) {n : Node} {children : Walk σ Node}
    {within : Node → Option Node} (hwithin : ∀ m, Node.Alike n m → within m = around [m])
    (hn : n.kind ≠ none) (hchildren : children.Rebuilds v scopes n id) :
    (visit v again place within n children).Visits v scopes around place n id := by
  intro user
  obtain ⟨⟨⟨replacement, descend⟩, user₁, scopes', fault'⟩, henter⟩ :
      ∃ e : Entry × WalkState σ, (v.enter ⟨place, around [n]⟩ n).run ⟨user, scopes, none⟩ = e :=
    ⟨_, rfl⟩
  have hreplacement := hv.replacement ⟨place, around [n]⟩ n ⟨user, scopes, none⟩
  have hscopes := hv.enter_scopes ⟨place, around [n]⟩ n ⟨user, scopes, none⟩
  have hfault := hv.enter_fault ⟨place, around [n]⟩ n ⟨user, scopes, none⟩
  rw [henter] at hreplacement hscopes hfault
  cases hreplacement
  cases hscopes
  cases hfault
  unfold visit
  rw [Walk.run_unless_halted, if_neg nofun, Walk.run_bind, hwithin n (.refl n), henter,
    Walk.run_unless_halted, if_neg nofun]
  -- a node that is not entered is not left either
  cases descend with
  | false => exact ⟨n, _, rfl, .refused hn henter .done, rfl, .refl n, fun _ hblock => hblock⟩
  | true =>
    obtain ⟨m, below, hrun, hpasses, hm : m = n.withChildren below.nodes⟩ := hchildren user₁
    have halike : Node.Alike n m := hm ▸ n.alike_withChildren below.nodes
    obtain ⟨⟨m', user₂, scopes', fault'⟩, hleave⟩ : ∃ l : Node × WalkState σ,
        (v.leave ⟨place, around [m]⟩ m).run ⟨below.user, scopes, none⟩ = l := ⟨_, rfl⟩
    have hkind : m.kind = n.kind := by rw [hm, Node.kind_withChildren]
    have hscopes := hv.leave_scopes ⟨place, around [m]⟩ m ⟨below.user, scopes, none⟩
    have hfault := hv.leave_fault ⟨place, around [m]⟩ m ⟨below.user, scopes, none⟩
    have hsort := hv.alike (hkind.trans_ne hn) ⟨place, around [m]⟩ ⟨below.user, scopes, none⟩
    have hblock : place = .functionBody → n.kind = some .block → m'.kind = some .block := by
      intro hplace hblock
      have hbody := hv.body ⟨place, around [m]⟩ m ⟨below.user, scopes, none⟩ hplace
        (hkind.trans hblock)
      rwa [hleave] at hbody
    rw [hleave] at hscopes hfault hsort
    cases hscopes
    cases hfault
    refine ⟨m', _, ?_, .left hn henter hpasses (hm ▸ hleave) .done, rfl, halike.trans hsort, hblock⟩
    change (do let node ← children
               if ← Walk.halted then return node
               v.leave ⟨place, within node⟩ node).run _ = _
    rw [Walk.run_bind, hrun, Walk.run_unless_halted, if_neg nofun, hwithin m halike]
    exact hleave

/-- What comes back for a node is taken as being of the node's sort. -/
theorem visitAs_visits (hv : v.InPlace) {α : Type} {embed : α → Node} {project : Node → Option α}
    {within : α → Node} {x : α} {children : Walk σ α}
    (hsort : ∀ m, Node.Alike (embed x) m → ∃ y, m = embed y ∧ project m = some y)
    (haround : ∀ y, around [embed y] = some (within y)) (hx : (embed x).kind ≠ none)
    (hchildren : children.Rebuilds v scopes (embed x) embed) :
    (visitAs v again embed project place within x children).Visits v scopes around place (embed x)
      embed := by
  intro user
  have hvisits : (visit v again place (fun n => (project n).map within) (embed x)
      (return embed (← children))).Visits v scopes around place (embed x) id := by
    refine visit_visits hv again (fun m hm => ?_) hx (hchildren.map fun _ _ h => h)
    obtain ⟨y, rfl, hy⟩ := hsort m hm
    rw [hy, haround]
    rfl
  obtain ⟨m, r, hrun, hpasses, hnodes, halike, hblock⟩ := hvisits user
  obtain ⟨y, rfl, hy⟩ := hsort m halike
  refine ⟨y, r, ?_, hpasses, hnodes, halike, hblock⟩
  rw [visitAs, Walk.run_bind, hrun]
  simp only [hy]
  rfl

theorem visitExpr_visits (hv : v.InPlace) {within : Expr → Node} {x : Expr}
    {children : Walk σ Expr} (haround : ∀ y, around [.expr y] = some (within y))
    (hchildren : children.Rebuilds v scopes (.expr x) Node.expr) :
    (visitExpr v again place within x children).Visits v scopes around place (.expr x) Node.expr := by
  have hsort : ∀ m, Node.Alike (.expr x) m → ∃ y, m = .expr y ∧ m.expr? = some y := by
    rintro _ ⟨⟩
    exact ⟨_, rfl, rfl⟩
  cases x with
  | absent => exact fun user => ⟨.absent, _, rfl, .absent rfl .done, rfl, .refl _, fun _ h => h⟩
  | _ => exact visitAs_visits hv hsort haround nofun hchildren

theorem visitStmt_visits (hv : v.InPlace) {within : Stmt → Node} {s : Stmt}
    {children : Walk σ Stmt} (haround : ∀ t, around [.stmt t] = some (within t))
    (hchildren : children.Rebuilds v scopes (.stmt s) Node.stmt) :
    (visitStmt v again place within s children).Visits v scopes around place (.stmt s) Node.stmt := by
  have hsort : ∀ m, Node.Alike (.stmt s) m → ∃ t, m = .stmt t ∧ m.stmt? = some t := by
    rintro _ ⟨⟩
    exact ⟨_, rfl, rfl⟩
  cases s with
  | absent => exact fun user => ⟨.absent, _, rfl, .absent rfl .done, rfl, .refl _, fun _ h => h⟩
  | _ => exact visitAs_visits hv hsort haround nofun hchildren

/-- A block that is visited as the body of a function stays one. -/
theorem visitBody_visits (hv : v.InPlace) {within : Stmt → Node} {body : Stmt}
    {children : Walk σ Stmt} (haround : ∀ t, around [.stmt t] = some (within t)) (hbody : body.IsBody)
    (hchildren : children.Rebuilds v scopes (.stmt body) Node.stmt) :
    (visitBody v again within body children).Visits v scopes around .functionBody (.stmt body)
      Node.stmt := by
  intro user
  have hvisits : (visitStmt v again .functionBody within body children).Visits v scopes around
      .functionBody (.stmt body) Node.stmt := visitStmt_visits hv haround hchildren
  obtain ⟨b, r, hrun, hpasses, hnodes, halike, hblock⟩ := hvisits user
  cases body with
  | absent => exact ⟨.absent, _, rfl, .absent rfl .done, rfl, .refl _, fun _ h => h⟩
  | block =>
    refine ⟨b, r, ?_, hpasses, hnodes, halike, hblock⟩
    rw [visitBody, Walk.run_bind, hrun]
    cases b with
    | block => rfl
    | _ => cases hblock rfl rfl
  | _ => cases hbody

mutual

theorem walkExpr_rebuilds (hv : v.InPlace) (scopes : Scopes) (x : Expr) (hx : x.Blocks) :
    (walkExpr v again x).Rebuilds v scopes (.expr x) Node.expr := by
  cases x with
  | name ident q =>
    rw [walkExpr]
    exact .last (visitExpr_visits hv (fun _ => rfl) (walkExpr_rebuilds hv scopes q hx)) fun _ => rfl
  | call callee args =>
    rw [walkExpr]
    have hcall : ∀ c ys, (Node.expr (.call callee args)).withChildren
        (.expr c :: List.map Node.expr ys) = .expr (.call c ys) := by
      simp [Node.withChildren, List.filterMap_map, Function.comp_def, Node.expr?]
    refine .cons (visitExpr_visits hv (fun c => ?_) (walkExpr_rebuilds hv scopes callee hx.1))
      fun c => ?_
    · rw [map_snd_numbered]
      exact congrArg some (hcall c args)
    · -- the parent of the arguments has the callee that the visit has left
      refine .map (walkArgs_goes hv scopes (fun ys => congrArg some (hcall c ys)) 0 args hx.2) ?_
      rintro xs _ rfl
      exact (hcall c xs).symm
  | binary op x y =>
    rw [walkExpr]
    refine .cons (visitExpr_visits hv (fun _ => rfl) (walkExpr_rebuilds hv scopes x hx.1))
      fun _ => ?_
    exact .last (visitExpr_visits hv (fun _ => rfl) (walkExpr_rebuilds hv scopes y hx.2))
      fun _ => rfl
  | unary op x =>
    rw [walkExpr]
    exact .last (visitExpr_visits hv (fun _ => rfl) (walkExpr_rebuilds hv scopes x hx)) fun _ => rfl
  | func f =>
    rw [walkExpr]
    refine .last (visitAs_visits hv ?_ (fun _ => rfl) nofun
      (walkFunction_rebuilds hv scopes f hx)) fun _ => rfl
    rintro _ ⟨⟩
    exact ⟨_, rfl, rfl⟩
  | _ => exact .pure _ rfl

theorem walkArgs_goes (hv : v.InPlace) (scopes : Scopes)
    {around : List Node → Option Node} {within : List Expr → Node}
    (haround : ∀ ys, around (List.map Node.expr ys) = some (within ys)) (i : Nat) (xs : List Expr)
    (hxs : ArgsBlocks xs) :
    (walkArgs v again within i xs).Goes v scopes scopes around (numbered .argument .expr i xs)
      fun ys cs => cs = ys.map Node.expr := by
  cases xs with
  | nil => exact .pure [] rfl
  | cons x xs =>
    rw [walkArgs, numbered_cons]
    refine .cons (visitExpr_visits hv (fun y => ?_) (walkExpr_rebuilds hv scopes x hxs.1))
      fun y => ?_
    · rw [map_snd_numbered]
      exact haround (y :: xs)
    · refine .map (walkArgs_goes hv scopes (fun ys => haround (y :: ys)) (i + 1) xs hxs.2) ?_
      rintro ys _ rfl
      rfl

theorem walkStmt_rebuilds (hv : v.InPlace) (scopes : Scopes) (s : Stmt) (hs : s.Blocks) :
    (walkStmt v again s).Rebuilds v scopes (.stmt s) Node.stmt := by
  cases s with
  | absent => exact .pure _ rfl
  | block ss =>
    rw [walkStmt]
    have hblock : ∀ ts, (Node.stmt (.block ss)).withChildren (List.map Node.stmt ts) =
        .stmt (.block ts) := by
      simp [Node.withChildren, List.filterMap_map, Function.comp_def, Node.stmt?]
    refine .map (walkStmts_goes hv scopes (fun ts => congrArg some (hblock ts)) 0 ss hs) ?_
    rintro ts _ rfl
    exact (hblock ts).symm
  | expr x =>
    rw [walkStmt]
    exact .last (visitExpr_visits hv (fun _ => rfl) (walkExpr_rebuilds hv scopes x hs)) fun _ => rfl
  | ret x =>
    rw [walkStmt]
    exact .last (visitExpr_visits hv (fun _ => rfl) (walkExpr_rebuilds hv scopes x hs)) fun _ => rfl
  | var ds =>
    rw [walkStmt]
    have hvar : ∀ es, (Node.stmt (.var ds)).withChildren (List.map Node.decl es) =
        .stmt (.var es) := by
      simp [Node.withChildren, List.filterMap_map, Function.comp_def, Node.decl?]
    refine .map (walkDecls_goes hv scopes (fun es => congrArg some (hvar es)) 0 ds hs) ?_
    rintro es _ rfl
    exact (hvar es).symm
  | cond test yes no =>
    rw [walkStmt]
    refine .cons (visitExpr_visits hv (fun _ => rfl) (walkExpr_rebuilds hv scopes test hs.1))
      fun _ => ?_
    refine .cons (visitStmt_visits hv (fun _ => rfl) (walkStmt_rebuilds hv scopes yes hs.2.1))
      fun _ => ?_
    exact .last (visitStmt_visits hv (fun _ => rfl) (walkStmt_rebuilds hv scopes no hs.2.2))
      fun _ => rfl

theorem walkStmts_goes (hv : v.InPlace) (scopes : Scopes)
    {around : List Node → Option Node} {within : List Stmt → Node}
    (haround : ∀ ts, around (List.map Node.stmt ts) = some (within ts)) (i : Nat) (ss : List Stmt)
    (hss : StmtsBlocks ss) :
    (walkStmts v again within i ss).Goes v scopes scopes around (numbered .blockStmt .stmt i ss)
      fun ts cs => cs = ts.map Node.stmt := by
  cases ss with
  | nil => exact .pure [] rfl
  | cons s ss =>
    rw [walkStmts, numbered_cons]
    refine .cons (visitStmt_visits hv (fun t => ?_) (walkStmt_rebuilds hv scopes s hss.1))
      fun t => ?_
    · rw [map_snd_numbered]
      exact haround (t :: ss)
    · refine .map (walkStmts_goes hv scopes (fun ts => haround (t :: ts)) (i + 1) ss hss.2) ?_
      rintro ts _ rfl
      rfl

theorem walkDecl_rebuilds (hv : v.InPlace) (scopes : Scopes) (d : Decl) (hd : d.Blocks) :
    (walkDecl v again d).Rebuilds v scopes (.decl d) Node.decl := by
  cases d with
  | mk name init =>
    rw [walkDecl]
    exact .last (visitExpr_visits hv (fun _ => rfl) (walkExpr_rebuilds hv scopes init hd))
      fun _ => rfl

theorem walkDecls_goes (hv : v.InPlace) (scopes : Scopes)
    {around : List Node → Option Node} {within : List Decl → Node}
    (haround : ∀ es, around (List.map Node.decl es) = some (within es)) (i : Nat) (ds : List Decl)
    (hds : DeclsBlocks ds) :
    (walkDecls v again within i ds).Goes v scopes scopes around (numbered .varDecl .decl i ds)
      fun es cs => cs = es.map Node.decl := by
  cases ds with
  | nil => exact .pure [] rfl
  | cons d ds =>
    rw [walkDecls, numbered_cons]
    refine .cons (visitAs_visits hv ?_ (fun e => ?_) nofun (walkDecl_rebuilds hv scopes d hds.1))
      fun e => ?_
    · rintro _ ⟨⟩
      exact ⟨_, rfl, rfl⟩
    · rw [map_snd_numbered]
      exact haround (e :: ds)
    · refine .map (walkDecls_goes hv scopes (fun es => haround (e :: es)) (i + 1) ds hds.2) ?_
      rintro es _ rfl
      rfl

/-- The scope of a function is opened and closed again, and nothing is declared in between. -/
theorem walkFunction_rebuilds (hv : v.InPlace) (scopes : Scopes) (f : Function)
    (hf : f.Blocks) : (walkFunction v again f).Rebuilds v scopes (.function f) Node.function := by
  cases f with
  | mk name params names body =>
    intro user
    have hvisits : (visitBody v again (fun b => .function (.mk name params names b)) body
        (walkStmt v again body)).Visits v (names :: scopes)
        (fun cs => some ((Node.function (.mk name params names body)).withChildren cs)) _ _ _ :=
      visitBody_visits hv (fun _ => rfl) hf.2 (walkStmt_rebuilds hv (names :: scopes) body hf.1)
    obtain ⟨b, r, hrun, hpasses, hnodes, -⟩ := hvisits user
    refine ⟨.mk name params names b, r, ?_, hpasses, by rw [hnodes]; rfl⟩
    rw [walkFunction, Walk.run_bind]
    change (visitBody v again _ body (walkStmt v again body) >>= _).run ⟨user, names :: scopes, none⟩ = _
    rw [Walk.run_bind, hrun]
    rfl

end

end

/-! ## Section 4: Whole trees -/

/-- The bodies of all functions in a tree are blocks, or absent. -/
def Node.Blocks : Node → Prop
  | .function f => f.Blocks
  | .decl d => d.Blocks
  | .stmt s => s.Blocks
  | .expr x => x.Blocks

theorem walkChildren_rebuilds {v : Visitor σ} (hv : v.InPlace) (again : Node → Walk σ Node)
    (scopes : Scopes) {n : Node} (hn : n.kind ≠ none) (hblocks : n.Blocks) :
    (walkChildren v again n).Rebuilds v scopes n id := by
  cases n with
  | function f => exact .map (walkFunction_rebuilds hv scopes f hblocks) fun _ _ h => h
  | decl d => exact .map (walkDecl_rebuilds hv scopes d hblocks) fun _ _ h => h
  | stmt s =>
    cases s with
    | absent => exact absurd rfl hn
    | _ => exact .map (walkStmt_rebuilds hv scopes _ hblocks) fun _ _ h => h
  | expr x =>
    cases x with
    | absent => exact absurd rfl hn
    | _ => exact .map (walkExpr_rebuilds hv scopes _ hblocks) fun _ _ h => h

/-- A traversal by a visitor that works in place is the map from the bottom up.  The visitor leaves the
    nodes that are there in the given tree, apart from those that it refuses and what is below them, each
    once and behind those below it, and none of those that it has put in their places.  It refuses none if
    it always wants to go on.  The parent that it is shown is the node above with what has become of its
    children so far. -/
theorem runWalk_in_place {v : Visitor σ} (hv : v.InPlace) (depth : Nat) (n : Node)
    (hn : n.kind ≠ none) (hblocks : n.Blocks) (scopes : Scopes) (user : σ) :
    (∃ m r, Passes v scopes (fun _ => none) [(.root, n)] user r ∧ r.nodes = [m] ∧
      runWalk v depth n scopes user = ⟨m, r.user, scopes, none⟩ ∧
      r.Covers [(.root, n)] ∧
      ((∀ slot c s, ((v.enter slot c).run s).1.descend = true) → r.refused = [])) ∧
    ∀ a s s' d, Stands [(.root, n)] (a ++ [s, s']) d →
      ∃ c, Stands [(.root, n)] (a ++ [s]) c ∧ (s', d) ∈ c.places ∧
        ∀ cs, Slot.parent ⟨s', some (c.withChildren cs)⟩ = c.kind := by
  refine ⟨?_, fun a s s' d h => ?_⟩
  · have hvisits : (walk v depth n).Visits v scopes (fun _ => none) .root n id :=
      visit_visits hv _ (fun _ _ => rfl) hn (walkChildren_rebuilds hv _ scopes hn hblocks)
    obtain ⟨m, r, hrun, hpasses, hnodes, -⟩ := hvisits user
    refine ⟨m, r, hpasses, hnodes, ?_, hpasses.covers (by simp),
      fun hall => hpasses.refused_eq_nil hall⟩
    rw [runWalk, hrun]
  · obtain ⟨c, hc, hd⟩ := h.parent
    exact ⟨c, hc, hd, fun cs => c.kind_withChildren cs⟩

/-- A literal becomes a sum. -/
def doubled : Node → Node
  | .expr (.literal text) => .expr (.binary "+" (.literal text) (.literal text))
  | n => n

/-- The visitor that does not go into function literals, notes the fields of the nodes that it leaves,
    and doubles literals. -/
def doubling : Visitor (List String) where
  enter _ n := return { descend := n.kind ≠ some .func }
  leave slot n := do
    modify fun s => { s with user := s.user ++ [slot.field] }
    return doubled n

/-- A call with a literal and a function as its arguments. -/
def callWithFunction : Node :=
  .stmt (.ret (.call .this [.literal "1", .func (.mk "" [] [] (.block [.expr (.literal "2")]))]))

theorem doubling_inPlace : doubling.InPlace := by
  refine ⟨fun _ _ _ => rfl, fun _ _ _ => rfl, fun _ _ _ => rfl, fun _ _ _ => rfl, fun _ _ _ => rfl,
    fun slot n s _ => ?_, fun slot n s _ hn => ?_⟩
  · change doubled n = n ∨ n.replaceBy (doubled n) = .ok (doubled n)
    unfold doubled
    split
    · exact .inr rfl
    · exact .inl rfl
  · change (doubled n).kind = some .block
    unfold doubled
    split
    · cases hn
    · exact hn

/-- The function is left out, and the sum that is put in the place of a literal is not gone into. -/
theorem runWalk_in_place_doubling :
    (runWalk doubling 0 callWithFunction [] []).user = ["Callee", "Args", "X", ""] ∧
    (∃ m r, Passes doubling [] (fun _ => none) [(.root, callWithFunction)] [] r ∧ r.nodes = [m] ∧
      runWalk doubling 0 callWithFunction [] [] = ⟨m, r.user, [], none⟩ ∧
      r.Covers [(.root, callWithFunction)] ∧
      ((∀ slot c s, ((doubling.enter slot c).run s).1.descend = true) → r.refused = [])) ∧
    ∀ a s s' d, Stands [(.root, callWithFunction)] (a ++ [s, s']) d →
      ∃ c, Stands [(.root, callWithFunction)] (a ++ [s]) c ∧ (s', d) ∈ c.places ∧
        ∀ cs, Slot.parent ⟨s', some (c.withChildren cs)⟩ = c.kind :=
  ⟨rfl, runWalk_in_place doubling_inPlace 0 callWithFunction nofun
    ⟨trivial, trivial, ⟨⟨trivial, trivial⟩, trivial⟩, trivial⟩ [] []⟩

end DefaultLowering.Fragment
