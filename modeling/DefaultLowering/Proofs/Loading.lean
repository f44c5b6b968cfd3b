import DefaultLowering.Proofs.Building
import DefaultLowering.Proofs.Deriving
import DefaultLowering.Proofs.Hierarchy
import DefaultLowering.Proofs.Naming

/-!
# Loaded programs

What is known of a program that was built from a description, whatever the description says.

- `Rebodied`: the last round of loading changes bodies only;
- `Tabulates`: the table of a fragment lists its method references, each once and with the method that
  it denotes;
- `HasBody`, `build_hasBody`: the body that a method has is what its description says;
- `Fresh`: a coherent program without static implementations, in which every body fits its method and
  the method references of fragments are linked to the methods they denote;
- `Loaded.fresh`: every loaded program is one.
-/

namespace DefaultLowering.Description

open Program
open Fragment (isMethodIdent)

variable {pos : Pos} {f : Fragment.Function} {refs : List Linkage}
  {index : MemberIndex} {p : Program} {file : String}

/-! ## Section 1: The round of bodies changes bodies only -/

/-- The second program is the first with other bodies. -/
structure Rebodied (p q : Program) : Prop where
  rest : q = { p with methods := q.methods, globals := q.globals }
  length : q.methods.length = p.methods.length
  method : ∀ m, ∃ b, q.method m = { p.method m with body := b }

namespace Rebodied

theorem refl (p : Program) : Rebodied p p := ⟨rfl, rfl, fun _ => ⟨_, rfl⟩⟩

variable {p q r : Program}

theorem trans (h : Rebodied p q) (h' : Rebodied q r) : Rebodied p r := by
  refine ⟨?_, h'.length.trans h.length, ?_⟩
  · rw [h'.rest, h.rest]
  · intro m
    obtain ⟨b, hb⟩ := h.method m
    obtain ⟨c, hc⟩ := h'.method m
    exact ⟨c, by rw [hc, hb]⟩

theorem setBody (p : Program) (globals : List String) (m : MethodRef) (b : Option Program.Body) :
    Rebodied p ({ p with globals := globals }.setBody m b) := by
  refine ⟨rfl, length_methods_setBody (p := { p with globals := globals }) m b, ?_⟩
  intro k
  obtain ⟨c, hc⟩ := method_setBody (p := { p with globals := globals }) m k b
  exact ⟨c, hc⟩

variable (h : Rebodied p q)

include h

theorem types : q.types = p.types := by rw [h.rest]

theorem declared : q.declared = p.declared := by rw [h.rest]

theorem byName : q.byName = p.byName := by rw [h.rest]

theorem statics : q.statics = p.statics := by rw [h.rest]

theorem type (t : TypeRef) : q.type t = p.type t := by
  simp only [Program.type, h.types]

theorem sameHead (m : MethodRef) : SameHead (p.method m) (q.method m) := by
  obtain ⟨b, hb⟩ := h.method m
  rw [hb]
  rfl

theorem native (m : MethodRef) : (q.method m).native = (p.method m).native := by
  obtain ⟨b, hb⟩ := h.method m
  rw [hb]

theorem keepsHeads : p.KeepsHeads q :=
  ⟨Nat.le_of_eq h.length.symm, fun m _ => h.sameHead m⟩

theorem takesReceiver : takesReceiver q = takesReceiver p := by
  funext m
  unfold Description.takesReceiver
  rw [h.sameHead m]

theorem wired (hp : p.Wired) : q.Wired := by
  have harena : q.arena = p.arena := by rw [h.rest]
  have hstatics : q.statics = p.statics ++ [] := by rw [h.statics, List.append_nil]
  exact Wired.of_bodies h.types h.declared h.length harena hstatics h.sameHead hp nofun

theorem declaredMethods : q.declaredMethods = p.declaredMethods := by
  unfold Program.declaredMethods
  rw [h.declared]
  exact List.flatMap_congr fun t _ => by rw [h.type]

theorem memberIdent (m : MethodRef) : q.memberIdent m = p.memberIdent m := by
  simp only [Program.memberIdent, Program.memberText, enclosingName, h.type]
  rw [h.sameHead m]

theorem denoted (ident : String) : q.denoted ident = p.denoted ident := by
  simp only [Program.denoted, h.declaredMethods, h.memberIdent]

theorem nodeStands {m : MethodRef} {n : Node} (hn : p.NodeStands m n) : q.NodeStands m n := by
  have hparams : (q.method m).params = (p.method m).params := by rw [h.sameHead m]
  cases n with
  | expr x =>
    cases x with
    | new pos t =>
      show t ∈ q.declared ∧ (q.type t).isInterface = false ∧ (q.type t).abstract = false
      rw [h.declared, h.type]
      exact hn
    | _ => trivial
  | stmt s =>
    cases s with
    | «local» pos v init =>
      show ∀ x ∈ (q.method m).params, x.name ≠ v.name
      rw [hparams]
      exact hn
    | _ => trivial
  | _ => trivial

end Rebodied

/-! ## Section 2: Linked fragments -/

/-- Every method reference of a fragment has an entry in the linkage, and every entry targets what its
    identifier denotes.  No identifier has two entries. -/
structure Links (denoted : String → Option MethodRef) (f : Fragment.Function)
    (refs : List Linkage) : Prop where
  complete : ∀ ident ∈ f.memberIdents, isMethodIdent ident = true → ∃ r ∈ refs, r.ident = ident
  target : ∀ r ∈ refs, ∃ m, r.target = some m ∧ denoted r.ident = some m
  distinct : (refs.map (·.ident)).Nodup

/-- The linkage has one entry for each method that the fragment refers to, in the order in which it
    does so first, and all of them denote something. -/
structure Tabulates (denoted : String → Option MethodRef) (pos : Pos) (f : Fragment.Function)
    (refs : List Linkage) : Prop where
  entries : refs = (f.memberIdents.filter isMethodIdent).eraseDups.map fun ident =>
    ⟨pos, ident, denoted ident⟩
  known : ∀ ident ∈ f.memberIdents.filter isMethodIdent, (denoted ident).isSome = true

theorem nodup_eraseDups {α : Type} [BEq α] [LawfulBEq α] (xs : List α) : xs.eraseDups.Nodup := by
  induction hn : xs.length using Nat.strong_induction_on generalizing xs with
  | h n ih =>
    cases xs with
    | nil => exact List.nodup_nil
    | cons x xs =>
      rw [List.eraseDups_cons, List.nodup_cons, List.mem_eraseDups]
      have hshorter : (xs.filter fun y => !y == x).length < n := by
        have hle := List.length_filter_le (fun y => !y == x) xs
        rw [List.length_cons] at hn
        omega
      exact ⟨by simp, ih _ hshorter _ rfl⟩

theorem Tabulates.links {denoted : String → Option MethodRef} (h : Tabulates denoted pos f refs) :
    Links denoted f refs := by
  obtain ⟨rfl, hknown⟩ := h
  refine ⟨?_, ?_, ?_⟩
  · intro ident hident hmethod
    have hmem := List.mem_eraseDups.mpr (List.mem_filter.mpr ⟨hident, hmethod⟩)
    exact ⟨_, List.mem_map_of_mem hmem, rfl⟩
  · intro r hr
    obtain ⟨ident, hident, rfl⟩ := List.mem_map.mp hr
    obtain ⟨m, hm⟩ := Option.isSome_iff_exists.mp (hknown ident (List.mem_eraseDups.mp hident))
    exact ⟨m, hm, hm⟩
  · rw [List.map_map]
    exact (List.map_id _).symm ▸ nodup_eraseDups _

theorem addLinkage_complete (refs : List Linkage) (r : Linkage) :
    (∃ x ∈ addLinkage refs r, x.ident = r.ident) ∧ ∀ x ∈ refs, x ∈ addLinkage refs r := by
  unfold addLinkage
  split
  · rename_i hany
    obtain ⟨x, hx, hident⟩ := List.any_eq_true.mp hany
    exact ⟨⟨x, hx, by simpa using hident⟩, fun _ h => h⟩
  · exact ⟨⟨r, by simp, rfl⟩, fun x hx => List.mem_append_left _ hx⟩

/-- What is linked is listed behind what was listed before, each identifier where it occurs first. -/
theorem linkIdents_ok {idents : List String} {acc : List Linkage}
    (hok : linkIdents index pos idents acc = .ok refs) :
    refs = acc ++ ((idents.filter fun i => i ∉ acc.map (·.ident)).eraseDups.map fun i =>
      ⟨pos, i, index.lookup i⟩) ∧ ∀ i ∈ idents, (index.lookup i).isSome = true := by
  induction idents generalizing acc with
  | nil =>
    cases hok
    simp
  | cons ident idents ih =>
    rw [linkIdents] at hok
    cases hlookup : index.lookup ident with
    | none =>
      rw [hlookup] at hok
      cases hok
    | some m =>
      rw [hlookup] at hok
      obtain ⟨heq, hall⟩ := ih hok
      refine ⟨?_, List.forall_mem_cons.mpr ⟨by rw [hlookup]; rfl, hall⟩⟩
      rw [heq, addLinkage]
      by_cases hknown : ident ∈ acc.map (·.ident)
      · -- the identifier has an entry
        have hany : (acc.any fun r => r.ident == ident) = true := by
          obtain ⟨r, hr, hident⟩ := List.mem_map.mp hknown
          exact List.any_eq_true.mpr ⟨r, hr, beq_iff_eq.mpr hident⟩
        rw [if_pos hany, List.filter_cons_of_neg (by simpa using hknown)]
      · have hnone : ¬ (acc.any fun r => r.ident == ident) = true := by
          intro hany
          obtain ⟨r, hr, hident⟩ := List.any_eq_true.mp hany
          exact hknown (List.mem_map.mpr ⟨r, hr, beq_iff_eq.mp hident⟩)
        have hrest : (idents.filter fun i =>
              i ∉ (acc ++ [(⟨pos, ident, some m⟩ : Linkage)]).map (·.ident)) =
            idents.filter fun i => !i == ident && decide (i ∉ acc.map (·.ident)) := by
          refine List.filter_congr fun i _ => ?_
          by_cases hi : i = ident <;> simp [hi]
        rw [if_neg hnone, hrest, List.filter_cons_of_pos (by simpa using hknown),
          List.eraseDups_cons, List.map_cons, hlookup, List.append_assoc, List.filter_filter]
        rfl

theorem tabulates_of_linkIdents
    (h : linkIdents index pos (f.memberIdents.filter isMethodIdent) [] = .ok refs) :
    Tabulates (fun ident => index.lookup ident) pos f refs := by
  obtain ⟨heq, hknown⟩ := linkIdents_ok h
  refine ⟨?_, hknown⟩
  rw [heq, List.nil_append, List.filter_eq_self.mpr (by simp)]

/-- A fragment that is read for a method has the parameters of the method. -/
theorem params_of_parse {source : String} {params : List String} {chain chain' : Fragment.Chain}
    (h : Fragment.parse source params chain = .ok (f, chain')) :
    f.params = params := by
  rw [Fragment.parse_eq] at h
  obtain ⟨g, hg, h⟩ := bind_eq_ok.mp h
  unfold Fragment.readFragment at hg
  obtain ⟨⟨tokens, stop⟩, -, hg⟩ := bind_eq_ok.mp hg
  obtain ⟨⟨body, rest⟩, -, hg⟩ := bind_eq_ok.mp hg
  cases hg
  cases h
  rfl

/-! ## Section 3: A method gets its body -/

/-- The method has the body that its description gives it. -/
structure HasBody (denoted : String → Option MethodRef) (p : Program) (m : MethodRef) : Prop where
  lt : m.index < p.methods.length
  fits : p.MethodFits m
  stands : ∀ b, (p.method m).body = some b → ∀ n ∈ b.nodes fun _ => true, p.NodeStands m n
  placed : ∀ pos block, (p.method m).body = some (.code pos (some block)) →
    StmtsPlaced (takesReceiver p) block.stmts
  tabulated : ∀ pos f refs, (p.method m).body = some (.native pos (some f) refs) →
    Tabulates denoted (p.method m).pos f refs
  bound : ∀ pos f refs, (p.method m).body = some (.native pos (some f) refs) → f.Bound ∧ f.Blocks

section

variable {denoted : String → Option MethodRef} {p q : Program} {m : MethodRef}

theorem HasBody.kept (h : HasBody denoted p m) (hpq : Rebodied p q)
    (hsame : q.method m = p.method m) : HasBody denoted q m := by
  refine ⟨by rw [hpq.length]; exact h.lt, h.fits.kept hpq.keepsHeads hsame, ?_, ?_, ?_, ?_⟩
  · rw [hsame]
    exact fun b hb n hn => hpq.nodeStands (h.stands b hb n hn)
  · rw [hsame, hpq.takesReceiver]
    exact h.placed
  · rw [hsame]
    exact h.tabulated
  · rw [hsame]
    exact h.bound

/-- A body that fits is given to a method. -/
theorem setBody_hasBody (b : Option Program.Body) (globals : List String)
    (hm : m.index < p.methods.length) (hnative : (p.method m).native = b.any Body.isNative)
    (hcode : ∀ pos block, b = some (.code pos block) → ∃ c, block = some c ∧
      StmtsFit p m [] c.stmts ∧ StmtsPlaced (takesReceiver p) c.stmts)
    (hstands : ∀ c, b = some c → ∀ n ∈ c.nodes fun _ => true, p.NodeStands m n)
    (hfragment : ∀ pos func refs, b = some (.native pos func refs) → ∃ f, func = some f ∧
      f.params = (p.method m).params.map (·.name) ∧
      Tabulates denoted (p.method m).pos f refs ∧ f.Bound ∧ f.Blocks)
    (hq : q = { p with globals := globals }.setBody m b) :
    Rebodied p q ∧ HasBody denoted q m ∧ ∀ k, k ≠ m → q.method k = p.method k := by
  have hpq : Rebodied p q := hq ▸ Rebodied.setBody p globals m b
  have hself : q.method m = { p.method m with body := b } := by
    rw [hq]
    exact method_setBody_self (p := { p with globals := globals }) b hm
  refine ⟨hpq, ⟨by rw [hpq.length]; exact hm, ⟨?_, ?_, ?_⟩, ?_, ?_, ?_, ?_⟩, ?_⟩
  · intro pos block hbody
    rw [hself] at hbody
    obtain ⟨c, hc, hfits, -⟩ := hcode pos block hbody
    exact ⟨c, hc, hfits.kept hpq.keepsHeads hm⟩
  · rw [hself]
    exact hnative
  · intro pos func refs hbody
    rw [hself] at hbody ⊢
    obtain ⟨f, hf, hparams, -⟩ := hfragment pos func refs hbody
    exact ⟨f, hf, hparams⟩
  · intro c hbody n hn
    rw [hself] at hbody
    exact hpq.nodeStands (hstands c hbody n hn)
  · intro pos block hbody
    rw [hself] at hbody
    obtain ⟨c, hc, -, hplaced⟩ := hcode pos (some block) hbody
    cases hc
    rw [hpq.takesReceiver]
    exact hplaced
  · intro pos f refs hbody
    rw [hself] at hbody ⊢
    obtain ⟨g, hg, -, htable, -⟩ := hfragment pos (some f) refs hbody
    cases hg
    exact htable
  · intro pos f refs hbody
    rw [hself] at hbody
    obtain ⟨g, hg, -, -, hbound⟩ := hfragment pos (some f) refs hbody
    cases hg
    exact hbound
  · intro k hk
    rw [hq]
    exact method_setBody_ne (p := { p with globals := globals }) b hk

variable {file : String} {index : MemberIndex}

theorem buildFragment_hasBody {source : String} (hm : m.index < p.methods.length)
    (hnative : (p.method m).native = true) (hok : buildFragment p index m source = .ok q) :
    Rebodied p q ∧ HasBody (fun ident => index.lookup ident) q m ∧ ∀ k, k ≠ m → q.method k = p.method k := by
  simp only [buildFragment] at hok
  split at hok
  · cases hok
  · rename_i f chain hparse
    split at hok
    · cases hok
    · rename_i refs hrefs
      cases hok
      refine setBody_hasBody (some (.native (p.method m).pos (some f) refs)) chain.root.names hm
        hnative nofun ?_ ?_ rfl
      · intro c hc
        cases hc
        simp only [Body.nodes, below, if_true, List.forall_mem_cons, List.forall_mem_map]
        exact ⟨trivial, fun _ _ => trivial⟩
      · intro pos func refs' hbody
        cases hbody
        exact ⟨f, rfl, params_of_parse hparse, tabulates_of_linkIdents hrefs,
          Fragment.parse_bound hparse⟩

theorem buildMethodBody_hasBody {d : Method} (hs : Resolves p) (hm : m.index < p.methods.length)
    (hnative : (p.method m).native = d.native.isSome)
    (hok : buildMethodBody file index m d p = .ok q) :
    Rebodied p q ∧ HasBody (fun ident => index.lookup ident) q m ∧ ∀ k, k ≠ m → q.method k = p.method k := by
  unfold buildMethodBody at hok
  cases hd : d.native with
  | some =>
    rw [hd] at hok hnative
    exact buildFragment_hasBody hm hnative hok
  | none =>
    rw [hd] at hok hnative
    obtain ⟨b, hb, hok⟩ := bind_eq_ok.mp hok
    cases hok
    rcases buildBody_built hs hb with rfl | ⟨pos, block, rfl, hfits, hplaced, hstands⟩
    · exact setBody_hasBody none p.globals hm hnative nofun nofun nofun rfl
    · refine setBody_hasBody (some (.code pos (some block))) p.globals hm hnative ?_ ?_ nofun rfl
      · intro pos' block' hbody
        cases hbody
        exact ⟨block, rfl, hfits, hplaced⟩
      · intro c hc
        cases hc
        exact hstands

end

/-! ## Section 4: All methods get their bodies -/

theorem resolves_of_byName (hp : p.Wired)
    (hnames : ∀ name t, p.typeNamed name = some t → t ∈ p.declared) : Resolves p := by
  refine ⟨hnames, ?_⟩
  intro call m h
  obtain ⟨type, signature, t, -, ht, hm⟩ := resolveTarget_eq_ok.mp h
  exact (hp.member t (hnames type t ht) m (List.mem_of_find?_eq_some hm)).1

theorem Rebodied.resolves {q : Program} (h : Rebodied p q) (hp : p.Wired)
    (hnames : ∀ name t, p.typeNamed name = some t → t ∈ p.declared) : Resolves q := by
  refine resolves_of_byName (h.wired hp) ?_
  intro name t ht
  rw [typeNamed, h.byName] at ht
  rw [h.declared]
  exact hnames name t ht

/-- After the round every method in it has its body. -/
theorem buildBodies_hasBody {p₀ q : Program} {ds : List (MethodRef × Method)}
    {done : List MethodRef} (hp₀ : p₀.Wired)
    (hnames : ∀ name t, p₀.typeNamed name = some t → t ∈ p₀.declared)
    (hds : ∀ e ∈ ds, e.1.index < p₀.methods.length ∧ (p₀.method e.1).native = e.2.native.isSome)
    (hp : Rebodied p₀ p) (hdone : ∀ m ∈ done, HasBody (fun ident => index.lookup ident) p m)
    (hok : buildBodies file index ds p = .ok q) :
    Rebodied p₀ q ∧ ∀ m ∈ done ++ ds.map Prod.fst, HasBody (fun ident => index.lookup ident) q m := by
  induction ds generalizing p done with
  | nil =>
    cases hok
    rw [List.map_nil, List.append_nil]
    exact ⟨hp, hdone⟩
  | cons e ds ih =>
    obtain ⟨m, d⟩ := e
    rw [List.forall_mem_cons] at hds
    obtain ⟨⟨hm, hnative⟩, hds⟩ := hds
    obtain ⟨p₁, hd, hok⟩ := bind_eq_ok.mp hok
    rw [← hp.length] at hm
    rw [← hp.native] at hnative
    obtain ⟨hp₁, hbody, hothers⟩ := buildMethodBody_hasBody (hp.resolves hp₀ hnames) hm hnative hd
    rw [List.map_cons, List.append_cons]
    refine ih hds (hp.trans hp₁) ?_ hok
    -- a method that had its body before has it still, unless it has got another one now
    intro k hk
    by_cases hkm : k = m
    · rw [hkm]
      exact hbody
    · have hk' : k ∈ done := by simpa [hkm] using hk
      exact (hdone k hk').kept hp₁ (hothers k hkm)

theorem build_eq (file : String) (x : Description) :
    x.build file = x.linked file >>= fun p => checkCycles p >>= fun _ =>
      buildBodies file (NameCache.index {} p).1
        (p.declaredMethods.zip (x.types.flatMap (·.methods))) p := by
  unfold Description.build linked
  rw [bind_assoc]

/-- A built program is a drafted one in which every method has got its body. -/
theorem build_hasBody {x : Description} (hok : Description.build file x = .ok p) :
    ∃ p₀, x.linked file = .ok p₀ ∧ checkCycles p₀ = .ok () ∧ p₀.Drafted [] ∧ Rebodied p₀ p ∧
      ∀ m, m.index < p.methods.length → HasBody p.denoted p m := by
  rw [build_eq] at hok
  obtain ⟨p₀, hlinked, hok⟩ := bind_eq_ok.mp hok
  obtain ⟨done, hcycles, hok⟩ := bind_eq_ok.mp hok
  obtain ⟨h₀, hlisted, -⟩ := linked_describes hlinked
  have hwired := h₀.wired
  -- the round has one description for each method, in the same order
  have hheads : Heads p₀ p₀.declaredMethods (x.types.flatMap (·.methods)) :=
    List.rel_flatMap hlisted.outlines fun _ _ h => h.methods
  have hpairs : ∀ e ∈ p₀.declaredMethods.zip (x.types.flatMap (·.methods)),
      e.1.index < p₀.methods.length ∧ (p₀.method e.1).native = e.2.native.isSome :=
    fun e he => ⟨hwired.lt_of_mem_declaredMethods (List.of_mem_zip he).1,
      (List.forall₂_zip hheads he).native⟩
  have hbefore : ∀ m ∈ ([] : List MethodRef),
      HasBody (fun ident => (NameCache.index {} p₀).1.lookup ident) p₀ m := List.forall_mem_nil _
  obtain ⟨hp, hall⟩ := buildBodies_hasBody hwired h₀.byName hpairs (.refl p₀) hbefore hok
  -- the index was made before the bodies, which it does not depend on
  have hdenoted : (fun ident => (NameCache.index {} p₀).1.lookup ident) = p.denoted := by
    have hkeys : p₀.KeysApart :=
      hwired.keysApart fun t ht => h₀.distinct t (List.mem_append_left _ ht)
    funext ident
    rw [hp.denoted, NameCache.lookup_index hkeys hwired (NameCache.faithful_empty p₀)]
  rw [hdenoted] at hall
  refine ⟨p₀, hlinked, hcycles, h₀, hp, ?_⟩
  intro m hm
  refine hall m ?_
  rw [List.nil_append, List.map_fst_zip (Nat.le_of_eq hheads.length_eq)]
  exact hwired.mem_declaredMethods (hp.length ▸ hm)

theorem load_eq_ok {x : Description} (h : x.load file = .ok p) :
    x.build file = .ok p := by
  unfold Description.load at h
  split at h
  · cases h
  · split at h
    · cases h
    · rename_i q hq
      cases h
      exact hq

end DefaultLowering.Description

namespace DefaultLowering.Program

open Description

variable {p : Program}

/-! ## Section 5: Loaded programs -/

/-- A program that was built from a description. -/
def Loaded (p : Program) : Prop := ∃ file x, Description.build file x = .ok p

/-- Every program that is read from a text is one. -/
theorem loaded_of_loadText {file text : String} (h : Description.loadText file text = .ok p) :
    p.Loaded := by
  unfold loadText at h
  obtain ⟨x, -, h⟩ := bind_eq_ok.mp h
  exact ⟨file, x, load_eq_ok h⟩

/-- A program as loading leaves it. -/
structure Fresh (p : Program) : Prop extends Coherent p where
  statics : p.statics = []
  distinct : p.SignaturesApart
  fits : ∀ m, p.MethodFits m
  linked : ∀ m pos f refs, (p.method m).body = some (.native pos (some f) refs) →
    Links p.denoted f refs
  bound : ∀ m pos f refs, (p.method m).body = some (.native pos (some f) refs) →
    f.Bound ∧ f.Blocks
  /-- Nothing is listed twice. -/
  types_nodup : p.declared.Nodup
  methods_nodup : ∀ t ∈ p.declared, (p.type t).methods.Nodup

theorem methodFits_of_le {m : MethodRef} (h : p.methods.length ≤ m.index) :
    p.MethodFits m := by
  have hnone : (p.method m).body = none := by
    rw [method_of_le h]
    rfl
  refine ⟨?_, ?_, ?_⟩
  · rw [hnone]
    nofun
  · rw [hnone, method_of_le h]
    rfl
  · rw [hnone]
    nofun

theorem isDefault_takesReceiver (m : MethodRef) (h : p.isDefault m = true) :
    takesReceiver p m = true := by
  simp [takesReceiver, not_static_of_isDefault h]

/-- Loading leaves a coherent program in which nothing has been lowered. -/
theorem Loaded.fresh (h : p.Loaded) : p.Fresh := by
  obtain ⟨file, x, hbuild⟩ := h
  obtain ⟨p₀, -, -, h₀, hp, hbodies⟩ := build_hasBody hbuild
  have hwired : p.Wired := hp.wired h₀.wired
  have hstatics : p.statics = [] := hp.statics.trans h₀.statics
  have hnone := staticOf_of_statics hstatics
  have hsignature : ∀ m, (p.method m).signature = (p₀.method m).signature :=
    fun m => (hp.sameHead m).signature
  have hdistinct : p.SignaturesApart := by
    have hbefore := h₀.distinct
    rw [List.append_nil] at hbefore
    unfold SignaturesApart
    rw [hp.declared]
    exact ApartIn.congr hbefore (fun t => by rw [hp.type]) hsignature
  have hfits : ∀ m, p.MethodFits m := by
    intro m
    rcases Nat.lt_or_ge m.index p.methods.length with hm | hm
    · exact (hbodies m hm).fits
    · exact methodFits_of_le hm
  refine ⟨⟨hwired, ?_, ?_, ?_, ?_, ?_⟩, hstatics, hdistinct, hfits, ?_, ?_, ?_, ?_⟩
  · intro d d' hd hd'
    exact hwired.keysApart hdistinct d d' (lt_of_isDefault hd) (lt_of_isDefault hd')
  · intro d t _ ht
    rw [hnone] at ht
    cases ht
  · intro d d' t _ _ ht
    rw [hnone] at ht
    cases ht
  · intro m pos block hbody
    exact ((hbodies m (lt_of_body hbody)).placed pos block hbody).mono isDefault_takesReceiver
  · intro m pos func refs hbody
    obtain ⟨f, hf, -⟩ := (hfits m).fragment pos func refs hbody
    rw [hf]
    rfl
  · intro m pos f refs hbody
    exact ((hbodies m (lt_of_body hbody)).tabulated pos f refs hbody).links
  · intro m pos f refs hbody
    exact (hbodies m (lt_of_body hbody)).bound pos f refs hbody
  · have hbefore := h₀.types_nodup
    rw [List.append_nil] at hbefore
    rw [hp.declared]
    exact hbefore
  · intro t ht
    rw [hp.declared] at ht
    rw [hp.type]
    exact h₀.methods_nodup t (List.mem_append_left _ ht)

/-! ## Section 6: A small program -/

/-- Default methods that use each other, in typed code and in a fragment, one that uses itself, and a
    class that implements one of them and uses another. -/
def greeting : Description where
  version := "1.0"
  types := [
    { name := "Greeter"
      kind := "interface"
      methods := [
        { name := "greet"
          returns := "String"
          body := .stmts 4 [
            .local 5 5 "who" "String" (.record 5 none "" "Greeter.name()" .absent []),
            .ret 6 (.name 6 "who")] },
        { name := "name"
          returns := "String"
          native := some "return function(g) { return g.@Greeter::greet()(); }(this);" },
        { name := "again"
          params := [{ name := "n", type := "int" }]
          returns := "String"
          body := .stmts 9 [
            .ret 10 (.record 10 none "" "Greeter.again(int)"
              (.record 10 none "" "Greeter.greet()" .absent []) [.name 10 "n"])] }] },
    { name := "User"
      kind := "class"
      implementing := ["Greeter"]
      methods := [
        { name := "greet"
          returns := "String"
          native := some "return this.@Greeter::name()();" }] }]

/-- The program so described. -/
def greetingProgram : Program :=
  match Description.build "greeting" greeting with
  | .ok p => p
  | .error _ => {}

theorem greeting_loaded : greetingProgram.Loaded := by
  have hok : (Description.build "greeting" greeting).isOk = true := by decide +kernel
  obtain ⟨p, hp⟩ := Description.exists_of_isOk hok
  refine ⟨"greeting", greeting, ?_⟩
  rw [greetingProgram, hp]

end DefaultLowering.Program
