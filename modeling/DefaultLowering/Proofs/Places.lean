import DefaultLowering.Proofs.Declaring
import Mathlib.Data.List.Nodup

/-!
# Places in bodies and fragments

A place in a tree is the list of the numbers of the children that lead to it.  The children of a node
are said in one step, for typed bodies and for fragments (`Node.children`).  The traversals that only
look are compared with this: they meet the node at every place, and each once.

- `Enumerated`: a list has one entry for each of the things that a relation speaks of;
- `enumerated_places`: a list that is made of a node's own entry and the lists of its children has one
  entry for every place;
- `Program.Node.enumerated`, `Fragment.Node.enumerated`: so it is for the nodes of a body and for the
  names of a fragment.
-/

namespace DefaultLowering

/-! ## Section 1: Complete lists without repetition -/

section enumerated

variable {ι σ τ β : Type} {R S : σ → β → Prop} {ys zs : List β}

/-- The list has the answers of a relation, one entry for each thing that has one. -/
def Enumerated (R : σ → β → Prop) (ys : List β) : Prop :=
  ∃ xs : List σ, xs.Nodup ∧ List.Forall₂ R xs ys ∧ ∀ x y, R x y → x ∈ xs

namespace Enumerated

theorem congr (h : Enumerated R ys) (hRS : ∀ x y, R x y ↔ S x y) : Enumerated S ys := by
  obtain ⟨xs, hnodup, hall, hmem⟩ := h
  exact ⟨xs, hnodup, hall.imp fun x y => (hRS x y).mp, fun x y hxy => hmem x y ((hRS x y).mpr hxy)⟩

theorem eq_nil_iff (h : Enumerated R ys) : ys = [] ↔ ∀ x y, ¬R x y := by
  obtain ⟨xs, -, hall, hmem⟩ := h
  constructor
  · rintro rfl x y hxy
    cases hall
    cases hmem x y hxy
  · intro hnone
    cases hall with
    | nil => rfl
    | cons hxy => exact absurd hxy (hnone _ _)

theorem nil (h : ∀ x y, ¬R x y) : Enumerated R [] :=
  ⟨[], List.nodup_nil, .nil, fun x y hxy => absurd hxy (h x y)⟩

theorem option (x : σ) (o : Option β) : Enumerated (fun x' y => x' = x ∧ o = some y) o.toList := by
  cases o with
  | none => exact .nil fun _ _ h => nomatch h.2
  | some =>
    refine ⟨[x], List.nodup_singleton x, .cons ⟨rfl, rfl⟩ .nil, fun x' _ h => ?_⟩
    rw [h.1]
    exact List.mem_singleton_self x

theorem append (hR : Enumerated R ys) (hS : Enumerated S zs)
    (hdisjoint : ∀ x y z, R x y → ¬S x z) : Enumerated (fun x y => R x y ∨ S x y) (ys ++ zs) := by
  obtain ⟨xs, hnodup, hall, hmem⟩ := hR
  obtain ⟨xs', hnodup', hall', hmem'⟩ := hS
  -- a thing of both lists would have an answer of both relations
  have hapart : ∀ x ∈ xs, ∀ x' ∈ xs', x ≠ x' := by
    rintro x hx _ hx' rfl
    obtain ⟨y, -, hxy⟩ := exists_of_forall₂_left hall hx
    obtain ⟨z, -, hxz⟩ := exists_of_forall₂_left hall' hx'
    exact hdisjoint x y z hxy hxz
  refine ⟨xs ++ xs', List.nodup_append.mpr ⟨hnodup, hnodup', hapart⟩, ?_, ?_⟩
  · exact List.rel_append (hall.imp fun _ _ h => .inl h) (hall'.imp fun _ _ h => .inr h)
  · rintro x y (hxy | hxy)
    · exact List.mem_append_left _ (hmem x y hxy)
    · exact List.mem_append_right _ (hmem' x y hxy)

/-- The things under other names. -/
theorem map (h : Enumerated R ys) {f : σ → τ} (hf : Function.Injective f) :
    Enumerated (fun t y => ∃ x, f x = t ∧ R x y) ys := by
  obtain ⟨xs, hnodup, hall, hmem⟩ := h
  refine ⟨xs.map f, hnodup.map hf, ?_, ?_⟩
  · rw [List.forall₂_map_left_iff]
    exact hall.imp fun x y hxy => ⟨x, rfl, hxy⟩
  · rintro _ y ⟨x, rfl, hxy⟩
    exact List.mem_map_of_mem (hmem x y hxy)

/-- Lists that speak of different things, one after the other. -/
theorem flatMap {is : List ι} {R : ι → σ → β → Prop} {f : ι → List β}
    (h : ∀ i ∈ is, Enumerated (R i) (f i))
    (hdisjoint : is.Pairwise fun i j => ∀ x y z, R i x y → ¬R j x z) :
    Enumerated (fun x y => ∃ i ∈ is, R i x y) (is.flatMap f) := by
  induction is with
  | nil => exact .nil fun x y ⟨i, hi, _⟩ => nomatch hi
  | cons i is ih =>
    rw [List.forall_mem_cons] at h
    rw [List.pairwise_cons] at hdisjoint
    rw [List.flatMap_cons]
    refine (h.1.append (ih h.2 hdisjoint.2) ?_).congr fun x y => by simp
    rintro x y z hxy ⟨j, hj, hxz⟩
    exact hdisjoint.1 j hj x y z hxy hxz

end Enumerated

end enumerated

/-! ## Section 2: Places in a tree -/

section places

variable {α β : Type} (children : α → List α)

/-- The node at a place below another one. -/
def nodeAt : List Nat → α → Option α
  | [], a => some a
  | i :: place, a => ((children a)[i]?).bind (nodeAt place)

variable {children} [SizeOf α]

/-- A list with the entry of a node and then those of its children has all entries. -/
theorem enumerated_places (hsize : ∀ a, ∀ c ∈ children a, sizeOf c < sizeOf a) {entry : α → Option β}
    (list : α → List β) (hlist : ∀ a, list a = (entry a).toList ++ (children a).flatMap list) (a : α) :
    Enumerated (fun place y => ∃ b, nodeAt children place a = some b ∧ entry b = some y)
      (list a) := by
  have hchildren : ∀ c ∈ children a, Enumerated
      (fun place y => ∃ b, nodeAt children place c = some b ∧ entry b = some y) (list c) :=
    fun c hc => enumerated_places hsize list hlist c
  -- the places below the child with the number `i` begin with `i`
  have hbelow : Enumerated (fun place y => ∃ ci ∈ (children a).zipIdx, ∃ rest, ci.2 :: rest = place ∧
      ∃ b, nodeAt children rest ci.1 = some b ∧ entry b = some y)
      ((children a).zipIdx.flatMap fun ci => list ci.1) := by
    refine .flatMap (fun ci hci => (hchildren ci.1 (List.fst_mem_of_mem_zipIdx hci)).map ?_) ?_
    · exact List.cons_injective
    · have hnumbers : ((children a).zipIdx.map Prod.snd).Pairwise (· < ·) := by
        rw [List.zipIdx_map_snd]
        exact List.pairwise_lt_range'
      refine (List.pairwise_map.mp hnumbers).imp ?_
      rintro ci cj hlt _ y z ⟨rest, rfl, -⟩ ⟨rest', heq, -⟩
      rw [(List.cons.inj heq).1] at hlt
      exact Nat.lt_irrefl _ hlt
  have hflat : ((children a).zipIdx.flatMap fun ci => list ci.1) = (children a).flatMap list := by
    rw [← List.flatMap_map, List.zipIdx_map_fst]
  rw [hflat] at hbelow
  rw [hlist a]
  -- the entry of the node itself has the empty place
  refine ((Enumerated.option [] (entry a)).append hbelow ?_).congr fun place y => ?_
  · rintro _ y z ⟨rfl, -⟩ ⟨ci, -, rest, heq, -⟩
    cases heq
  · cases place with
    | nil => simp [nodeAt]
    | cons i place =>
      simp only [nodeAt, List.mem_zipIdx_iff_getElem?, Option.bind_eq_some_iff, reduceCtorEq,
        false_and, false_or, List.cons.injEq]
      constructor
      · rintro ⟨⟨c, j⟩, hc, _, ⟨rfl, rfl⟩, b, hb, hentry⟩
        exact ⟨b, ⟨c, hc, hb⟩, hentry⟩
      · rintro ⟨b, ⟨c, hc, hb⟩, hentry⟩
        exact ⟨(c, i), hc, place, ⟨rfl, rfl⟩, b, hb, hentry⟩
termination_by sizeOf a
decreasing_by exact hsize a c hc

end places

/-! ## Section 3: Typed bodies -/

namespace Program

/-- The nodes one step below a node. -/
def Node.children : Node → List Node
  | .body (.code _ (some block)) => [.stmt (.block block.pos block.stmts)]
  | .body (.code _ none) => []
  | .body (.native _ _ refs) => refs.map .linkage
  | .stmt .absent => []
  | .stmt (.block _ ss) => ss.map .stmt
  | .stmt (.ret _ x) => [.expr x]
  | .stmt (.expr _ x) => [.expr x]
  | .stmt (.local _ _ init) => [.expr init]
  | .expr (.call _ receiver _ args) => .expr receiver :: args.map .expr
  | .expr _ => []
  | .linkage _ => []

/-- The nodes that a traversal meets from a node on. -/
def Node.nodes : Node → List Node
  | .body b => b.nodes fun _ => true
  | .stmt s => s.nodes fun _ => true
  | .expr x => x.nodes fun _ => true
  | .linkage r => [.linkage r]

theorem Node.sizeOf_children (n : Node) : ∀ c ∈ n.children, sizeOf c < sizeOf n := by
  intro c hc
  cases n with
  | body b =>
    rcases b with ⟨pos, _ | ⟨blockPos, ss⟩⟩ | ⟨pos, func, refs⟩
    · cases hc
    · rw [List.mem_singleton.mp hc]
      simp +arith
    · obtain ⟨r, hr, rfl⟩ := List.mem_map.mp hc
      have hlt := List.sizeOf_lt_of_mem hr
      simp only [linkage.sizeOf_spec, body.sizeOf_spec, Body.native.sizeOf_spec]
      omega
  | stmt s =>
    cases s with
    | absent => cases hc
    | block =>
      obtain ⟨s, hs, rfl⟩ := List.mem_map.mp hc
      have hlt := List.sizeOf_lt_of_mem hs
      simp only [stmt.sizeOf_spec, Stmt.block.sizeOf_spec]
      omega
    | _ =>
      rw [List.mem_singleton.mp hc]
      simp +arith
  | expr x =>
    cases x with
    | call =>
      rcases List.mem_cons.mp hc with rfl | hc
      · simp +arith
      · obtain ⟨x, hx, rfl⟩ := List.mem_map.mp hc
        have hlt := List.sizeOf_lt_of_mem hx
        simp only [expr.sizeOf_spec, Expr.call.sizeOf_spec]
        omega
    | _ => cases hc
  | linkage => cases hc

/-- A traversal meets a node that is there, and then those below its children. -/
theorem Node.nodes_eq (n : Node) :
    n.nodes = (n.kind.map fun _ => n).toList ++ n.children.flatMap Node.nodes := by
  have hexprs : ∀ xs : List Expr, nodesOf (fun _ => true) xs = (xs.map Node.expr).flatMap nodes := by
    intro xs
    rw [nodesOf_eq_flatMap, List.flatMap_map]
    rfl
  have hstmts : ∀ ss : List Stmt,
      nodesOfStmts (fun _ => true) ss = (ss.map Node.stmt).flatMap nodes := by
    intro ss
    rw [nodesOfStmts_eq_flatMap, List.flatMap_map]
    rfl
  have hsingle : ∀ k : Node, [k].flatMap nodes = k.nodes := fun k => List.flatMap_singleton ..
  cases n with
  | body b =>
    rcases b with ⟨pos, _ | block⟩ | ⟨pos, func, refs⟩
    · rfl
    · rw [children, hsingle]
      rfl
    · rw [children, List.flatMap_map]
      show _ :: refs.map Node.linkage = _ :: refs.flatMap fun r => [Node.linkage r]
      rw [List.map_eq_flatMap]
  | stmt s =>
    cases s with
    -- a statement that is absent has no kind, and is not met
    | absent => rfl
    | block pos ss =>
      rw [children, ← hstmts]
      rfl
    | _ =>
      rw [children, hsingle]
      rfl
  | expr x =>
    cases x with
    | call =>
      rw [children, List.flatMap_cons, ← hexprs]
      rfl
    | _ => rfl
  | linkage => rfl

/-- What is read off the nodes of a traversal is read off each place once. -/
theorem Node.enumerated {β : Type} {entry : Node → Option β}
    (hentry : ∀ n, n.kind = none → entry n = none) (n : Node) :
    Enumerated (fun place y => ∃ k, nodeAt Node.children place n = some k ∧ entry k = some y)
      (n.nodes.filterMap entry) := by
  refine enumerated_places sizeOf_children (fun n => n.nodes.filterMap entry) (fun n => ?_) n
  rw [nodes_eq, List.filterMap_append, List.filterMap_flatMap]
  cases hkind : n.kind with
  | none => simp [hentry n hkind]
  | some => cases hn : entry n <;> simp [hn]

end Program

/-! ## Section 4: Fragments -/

namespace Fragment

/-- The nodes one step below a node. -/
def Node.children : Node → List Node
  | .function (.mk _ _ _ body) => [.stmt body]
  | .decl (.mk _ init) => [.expr init]
  | .stmt .absent => []
  | .stmt (.block ss) => ss.map .stmt
  | .stmt (.expr x) => [.expr x]
  | .stmt (.ret x) => [.expr x]
  | .stmt (.var ds) => ds.map .decl
  | .stmt (.cond test yes no) => [.expr test, .stmt yes, .stmt no]
  | .expr (.name _ qualifier _) => [.expr qualifier]
  | .expr (.call callee args) => .expr callee :: args.map .expr
  | .expr (.binary _ x y) => [.expr x, .expr y]
  | .expr (.unary _ x) => [.expr x]
  | .expr (.func f) => [.function f]
  | .expr _ => []

/-- The identifier of a name. -/
def Node.ident? : Node → Option String
  | .expr (.name ident _ _) => some ident
  | _ => none

theorem Node.ident?_eq_some {n : Node} {ident : String} (h : n.ident? = some ident) :
    ∃ qualifier level, n = .expr (.name ident qualifier level) := by
  unfold ident? at h
  split at h
  · cases h
    exact ⟨_, _, rfl⟩
  · cases h

/-- The identifiers that a traversal meets from a node on. -/
def Node.idents : Node → List String
  | .function f => f.idents
  | .decl d => d.init.idents
  | .stmt s => s.idents
  | .expr x => x.idents

theorem Node.sizeOf_children (n : Node) : ∀ c ∈ n.children, sizeOf c < sizeOf n := by
  intro c hc
  cases n with
  | function f =>
    obtain ⟨name, params, names, body⟩ := f
    rw [List.mem_singleton.mp hc]
    simp +arith
  | decl d =>
    obtain ⟨name, init⟩ := d
    rw [List.mem_singleton.mp hc]
    simp +arith
  | stmt s =>
    cases s with
    | absent => cases hc
    | block =>
      obtain ⟨s, hs, rfl⟩ := List.mem_map.mp hc
      have hlt := List.sizeOf_lt_of_mem hs
      simp only [stmt.sizeOf_spec, Stmt.block.sizeOf_spec]
      omega
    | var =>
      obtain ⟨d, hd, rfl⟩ := List.mem_map.mp hc
      have hlt := List.sizeOf_lt_of_mem hd
      simp only [stmt.sizeOf_spec, decl.sizeOf_spec, Stmt.var.sizeOf_spec]
      omega
    | expr x | ret x =>
      rw [List.mem_singleton.mp hc]
      simp +arith
    | cond test yes no =>
      have hcases : c = .expr test ∨ c = .stmt yes ∨ c = .stmt no := by simpa [children] using hc
      rcases hcases with rfl | rfl | rfl <;> simp +arith
  | expr x =>
    cases x with
    | name | unary | func =>
      rw [List.mem_singleton.mp hc]
      simp +arith
    | call =>
      rcases List.mem_cons.mp hc with rfl | hc
      · simp +arith
      · obtain ⟨x, hx, rfl⟩ := List.mem_map.mp hc
        have hlt := List.sizeOf_lt_of_mem hx
        simp only [expr.sizeOf_spec, Expr.call.sizeOf_spec]
        omega
    | binary op x y =>
      have hcases : c = .expr x ∨ c = .expr y := by simpa [children] using hc
      rcases hcases with rfl | rfl <;> simp +arith
    | _ => cases hc

/-- A traversal meets the identifier of a node, and then those below its children. -/
theorem Node.idents_eq (n : Node) :
    n.idents = n.ident?.toList ++ n.children.flatMap Node.idents := by
  have hargs : ∀ xs : List Expr, identsOfArgs xs = (xs.map Node.expr).flatMap idents := by
    intro xs
    induction xs with
    | nil => rfl
    | cons x xs ih => rw [identsOfArgs, ih, List.map_cons, List.flatMap_cons, idents]
  have hstmts : ∀ ss : List Stmt, identsOfStmts ss = (ss.map Node.stmt).flatMap idents := by
    intro ss
    induction ss with
    | nil => rfl
    | cons s ss ih => rw [identsOfStmts, ih, List.map_cons, List.flatMap_cons, idents]
  have hdecls : ∀ ds : List Decl, identsOfDecls ds = (ds.map Node.decl).flatMap idents := by
    intro ds
    induction ds with
    | nil => rfl
    | cons d ds ih =>
      obtain ⟨name, init⟩ := d
      rw [identsOfDecls, ih, List.map_cons, List.flatMap_cons, idents, Decl.init]
  have hsingle : ∀ k : Node, [k].flatMap idents = k.idents := fun k => List.flatMap_singleton ..
  cases n with
  | function f =>
    obtain ⟨name, params, names, body⟩ := f
    rw [children, hsingle]
    rfl
  | decl d =>
    obtain ⟨name, init⟩ := d
    rw [children, hsingle]
    rfl
  | stmt s =>
    cases s with
    | absent => rfl
    | block => rw [children, ← hstmts]; rfl
    | var => rw [children, ← hdecls]; rfl
    | cond =>
      rw [children, List.flatMap_cons, List.flatMap_cons, hsingle]
      exact List.append_assoc ..
    | _ => rw [children, hsingle]; rfl
  | expr x =>
    cases x with
    | call => rw [children, List.flatMap_cons, ← hargs]; rfl
    | binary => rw [children, List.flatMap_cons, hsingle]; rfl
    | name | unary | func => rw [children, hsingle]; rfl
    | _ => rfl

/-- The names of a fragment are met at each place once. -/
theorem Node.enumerated {β : Type} (entry : String → Option β) (n : Node) :
    Enumerated (fun place y => ∃ k, nodeAt Node.children place n = some k ∧
        k.ident?.bind entry = some y) (n.idents.filterMap entry) := by
  refine enumerated_places sizeOf_children (fun n => n.idents.filterMap entry) (fun n => ?_) n
  rw [idents_eq, List.filterMap_append, List.filterMap_flatMap]
  cases hident : n.ident? with
  | none => rfl
  | some ident => cases hentry : entry ident <;> simp [hentry]

end Fragment

end DefaultLowering
