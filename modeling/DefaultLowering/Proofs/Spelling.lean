import DefaultLowering.Description.Loader
import DefaultLowering.Proofs.Naming

/-!
# Plain names

Keys and identifiers are texts, so that names with brackets or colons in them could be mistaken for
something else, and a method that is named like a twin for the twin.  With plain names this cannot
happen: no two methods of a type ever have the same signature, and no default method has the identifier
of a twin.

- `PlainNames`: the restriction on names;
- `Spelled`: the invariant of lowering, kept by every step (`Step.spelled`);
- `memberIdent_twin`: no default method has the identifier of a twin.
-/

namespace DefaultLowering.Program

variable {p q : Program} {m k d : MethodRef}

/-! ## Section 1: Plain names -/

/-- The characters of method names. -/
def isNameChar (c : Char) : Bool := c.isAlphanum || c == '_' || c == '$'

/-- The characters of type names. -/
def isTypeNameChar (c : Char) : Bool := isNameChar c || c == '.'

/-- A method name of plain characters that is not kept for twins. -/
def Plain (name : String) : Prop :=
  name.toList.all isNameChar = true ∧ ¬ twinEnding.toList <:+ name.toList

instance (name : String) : Decidable (Plain name) := inferInstanceAs (Decidable (_ ∧ _))

/-- A program with plain names. -/
structure PlainNames (p : Program) : Prop where
  types : ∀ t ∈ p.declared, (p.type t).name.toList.all isTypeNameChar = true
  methods : ∀ m ∈ p.declaredMethods, Plain (p.method m).name

/-! ## Section 2: Reading texts -/

/-- A text is read up to the first occurrence of a mark. -/
theorem eq_of_append_cons_eq {α : Type} {a : α} {xs ys xs' ys' : List α} (hx : a ∉ xs)
    (hx' : a ∉ xs') (h : xs ++ a :: ys = xs' ++ a :: ys') : xs = xs' ∧ ys = ys' := by
  induction xs generalizing xs' with
  | nil =>
    cases xs' with
    | nil => exact ⟨rfl, List.tail_eq_of_cons_eq h⟩
    | cons x' =>
      have hhead : a = x' := List.head_eq_of_cons_eq h
      exact absurd (hhead ▸ List.mem_cons_self) hx'
  | cons x xs ih =>
    cases xs' with
    | nil =>
      have hhead : x = a := List.head_eq_of_cons_eq h
      exact absurd (hhead ▸ List.mem_cons_self) hx
    | cons =>
      rw [List.cons_append, List.cons_append, List.cons.injEq] at h
      obtain ⟨hxs, hys⟩ := ih (fun h => hx (List.mem_cons_of_mem _ h))
        (fun h => hx' (List.mem_cons_of_mem _ h)) h.2
      exact ⟨by rw [h.1, hxs], hys⟩

theorem toList_signature (x : Method) : x.signature.toList =
    x.name.toList ++ '(' :: ((String.intercalate "," (x.params.map Param.type)).toList ++ [')']) := by
  simp [Method.signature, String.toList_append]

theorem toList_memberIdent (p : Program) (m : MethodRef) : (p.memberIdent m).toList =
    '@' :: ((p.enclosingName m).toList ++ ':' :: ':' :: ((p.method m).name.toList ++ '(' ::
      ((String.join ((p.method m).params.map fun x => x.type.descriptor)).toList ++ [')']))) := by
  simp [memberIdent, memberText, String.toList_append]

theorem isMethodIdent_memberIdent (p : Program) (m : MethodRef) :
    Fragment.isMethodIdent (p.memberIdent m) = true := by
  rw [Fragment.isMethodIdent, toList_memberIdent, beq_iff_eq]
  simp only [← List.cons_append, ← List.append_assoc]
  exact List.getLast?_concat

theorem isMemberIdent_memberIdent (p : Program) (m : MethodRef) :
    Fragment.isMemberIdent (p.memberIdent m) = true := by
  rw [Fragment.isMemberIdent, toList_memberIdent]
  rfl

/-- Names without brackets are read off a signature, and so are the parameter types behind them. -/
theorem signature_inj {x y : Method} (hx : '(' ∉ x.name.toList) (hy : '(' ∉ y.name.toList)
    (h : x.signature = y.signature) : x.name = y.name ∧
      String.intercalate "," (x.params.map Param.type) =
        String.intercalate "," (y.params.map Param.type) := by
  have htexts := congrArg String.toList h
  rw [toList_signature, toList_signature] at htexts
  obtain ⟨hname, hrest⟩ := eq_of_append_cons_eq hx hy htexts
  exact ⟨String.toList_inj.mp hname, String.toList_inj.mp (List.append_cancel_right hrest)⟩

/-- Types without colons and names without brackets are read off an identifier. -/
theorem memberIdent_inj (hm : ':' ∉ (p.enclosingName m).toList)
    (hk : ':' ∉ (p.enclosingName k).toList) (hm' : '(' ∉ (p.method m).name.toList)
    (hk' : '(' ∉ (p.method k).name.toList) (h : p.memberIdent m = p.memberIdent k) :
    (p.method m).name = (p.method k).name := by
  have htexts := congrArg String.toList h
  rw [toList_memberIdent, toList_memberIdent, List.cons.injEq] at htexts
  obtain ⟨-, hrest⟩ := eq_of_append_cons_eq hm hk htexts.2
  rw [List.cons.injEq] at hrest
  obtain ⟨hname, -⟩ := eq_of_append_cons_eq hm' hk' hrest.2
  exact String.toList_inj.mp hname

/-- What follows the first part of a list can be told from the whole. -/
theorem intercalate_cons_inj {x : String} {xs ys : List String}
    (h : String.intercalate "," (x :: xs) = String.intercalate "," (x :: ys)) :
    String.intercalate "," xs = String.intercalate "," ys := by
  -- with a second part there is a comma behind the first
  have hlonger : ∀ y zs, String.intercalate "," (x :: y :: zs) ≠ x := by
    intro y zs heq
    have htexts := congrArg String.toList heq
    simp [String.intercalate_cons_cons, String.toList_append] at htexts
  cases xs with
  | nil =>
    cases ys with
    | nil => rfl
    | cons y ys =>
      rw [String.intercalate_singleton] at h
      exact absurd h.symm (hlonger y ys)
  | cons z zs =>
    cases ys with
    | nil =>
      rw [String.intercalate_singleton] at h
      exact absurd h (hlonger z zs)
    | cons =>
      rw [String.intercalate_cons_cons, String.intercalate_cons_cons] at h
      have htexts := congrArg String.toList h
      simp only [String.toList_append] at htexts
      exact String.toList_inj.mp (List.append_cancel_left htexts)

theorem Plain.no_bracket {name : String} (h : Plain name) : '(' ∉ name.toList := by
  intro hmem
  have hchar := List.all_eq_true.mp h.1 '(' hmem
  revert hchar
  decide

theorem no_bracket_twin {name : String} (h : '(' ∉ name.toList) :
    '(' ∉ (name ++ twinEnding).toList := by
  rw [String.toList_append, List.mem_append, not_or]
  exact ⟨h, by decide⟩

theorem not_plain_twin (name : String) : ¬ Plain (name ++ twinEnding) := by
  intro h
  apply h.2
  rw [String.toList_append]
  exact List.suffix_append _ _

/-! ## Section 3: Signatures stay apart -/

section

variable {p q : Program}

theorem SignaturesApart.of_bodies (h : p.SignaturesApart) (htypes : q.types = p.types)
    (hdeclared : q.declared = p.declared) (hmethod : ∀ m, SameHead (p.method m) (q.method m)) :
    q.SignaturesApart := by
  unfold SignaturesApart
  rw [hdeclared]
  exact ApartIn.congr h (fun t => by simp only [type, htypes]) fun m => (hmethod m).signature

theorem SignaturesApart.withMethod (h : p.SignaturesApart) (hp : p.Wired) {t : TypeRef}
    (ht : t ∈ p.declared) {x : Method} (hx : x.id = none)
    (hnew : ∀ k ∈ (p.type t).methods, (p.method k).signature ≠ x.signature) :
    (p.withMethod t x).SignaturesApart := by
  unfold SignaturesApart
  rw [declared_withMethod hx]
  exact ApartIn.withMethod hx h hp.filed ht hnew

end

/-! ## Section 4: Spelled programs -/

/-- Signatures are apart, and every method has a plain name unless it is a twin. -/
structure Spelled (p : Program) : Prop where
  apart : p.SignaturesApart
  named : ∀ m, m.index < p.methods.length →
    Plain (p.method m).name ∨ ∃ d, p.isDefault d = true ∧ p.staticOf? d = some m

section

variable {permit : Permit} {p q : Program} (hp : p.Coherent) (hs : p.Spelled)

include hp hs

/-- A default method is no twin, and so its name is plain. -/
theorem Spelled.plain_default (hd : p.isDefault d = true) :
    Plain (p.method d).name := by
  rcases hs.named d (lt_of_isDefault hd) with hplain | ⟨k, hk, hstatic⟩
  · exact hplain
  · have hnot := hp.twin_not_default hk hstatic
    rw [hd] at hnot
    cases hnot

theorem Spelled.no_bracket (hm : m.index < p.methods.length) :
    '(' ∉ (p.method m).name.toList := by
  rcases hs.named m hm with hplain | ⟨d, hd, hstatic⟩
  · exact hplain.no_bracket
  · rw [(hp.twin d m hd hstatic).name]
    exact no_bracket_twin (hs.plain_default hp hd).no_bracket

/-- The signature of a new twin is a new one. -/
theorem Spelled.signature_twin (hd : p.isDefault d = true) (hnone : p.staticOf? d = none)
    (hk : k ∈ (p.type (p.home d)).methods) :
    (p.method k).signature ≠ (p.twinMethod d).signature := by
  obtain ⟨hhome, henclosing, hmem⟩ := hp.home_declared (lt_of_isDefault hd)
  obtain ⟨hlt, hkhome⟩ := hp.member _ hhome k hk
  intro heq
  have hbracket : '(' ∉ (p.twinMethod d).name.toList :=
    no_bracket_twin (hs.plain_default hp hd).no_bracket
  obtain ⟨hname, hparams⟩ := signature_inj (hs.no_bracket hp hlt) hbracket heq
  rcases hs.named k hlt with hplain | ⟨d', hd', hstatic⟩
  · -- a plain name does not end as the name of a twin does
    rw [hname] at hplain
    exact not_plain_twin _ hplain
  · -- the twin of another method of the interface, which would have the same signature
    have htwin := hp.twin d' k hd' hstatic
    have hname' : (p.method d').name = (p.method d).name := by
      rw [htwin.name] at hname
      have htexts := congrArg String.toList hname
      rw [String.toList_append] at htexts
      exact String.toList_inj.mp (List.append_cancel_right (htexts.trans String.toList_append))
    have henclosing' : (p.method d').enclosing = some (p.home d) := by
      rw [← htwin.enclosing]
      exact hkhome
    have hiface : p.enclosingName d' = p.enclosingName d := by
      simp only [enclosingName, henclosing, henclosing']
    have htypes : String.intercalate "," ((p.method d').params.map Param.type) =
        String.intercalate "," ((p.method d).params.map Param.type) := by
      rw [htwin.params, hiface] at hparams
      exact intercalate_cons_inj hparams
    have hsignature : (p.method d').signature = (p.method d).signature := by
      simp only [Method.signature, hname', htypes]
    have hmem' : d' ∈ (p.type (p.home d)).methods := by
      obtain ⟨-, hhome', hmem'⟩ := hp.home_declared (lt_of_isDefault hd')
      rw [henclosing', Option.some.injEq] at hhome'
      rw [hhome']
      exact hmem'
    rw [hs.apart _ hhome d' hmem' d hmem hsignature, hnone] at hstatic
    cases hstatic

omit hp in
/-- The plain names of the old methods, and the twins, stay what they are. -/
theorem Spelled.named_extends (hext : p.Extends q) (hm : m.index < p.methods.length) :
    Plain (q.method m).name ∨ ∃ d, q.isDefault d = true ∧ q.staticOf? d = some m := by
  rcases hs.named m hm with hplain | ⟨d, hd, hstatic⟩
  · have hname : (q.method m).name = (p.method m).name := by rw [hext.method m hm]
    rw [hname]
    exact .inl hplain
  · refine .inr ⟨d, ?_, hext.staticOf d m hd hstatic⟩
    rw [hext.isDefault]
    exact hd

/-- Every step keeps signatures apart and names plain. -/
theorem Step.spelled (hstep : Step permit p q) : q.Spelled := by
  have hext := hstep.extends hp
  cases hstep with
  | twin d hd hnone =>
    have hlt := lt_of_isDefault hd
    have hhome := (hp.home_declared hlt).1
    refine ⟨?_, ?_⟩
    · have hmid : (p.withMethod (p.home d) (p.twinMethod d)).SignaturesApart :=
        hs.apart.withMethod hp.toWired hhome rfl fun k hk => hs.signature_twin hp hd hnone hk
      exact hmid.of_bodies rfl rfl (sameHead_withTwin hlt)
    · intro m hm
      rw [length_methods_withTwin, lt_next_iff] at hm
      rcases hm with hm | rfl
      · exact hs.named_extends hext hm
      · refine .inr ⟨d, ?_, ?_⟩
        · rw [hext.isDefault]
          exact hd
        · rw [staticOf_withTwin hp hd hnone hd, if_pos rfl]
  | forwarder d twin t hd htwin ht hclass hown =>
    refine ⟨?_, ?_⟩
    · -- a forwarder is added only where no method has its signature
      refine hs.apart.withMethod hp.toWired ht rfl fun k hk heq => ?_
      rw [signature_forwarderFor] at heq
      have hnot := List.find?_eq_none.mp hown k hk
      simp [heq] at hnot
    · intro m hm
      rw [length_methods_withMethod rfl, lt_next_iff] at hm
      rcases hm with hm | rfl
      · exact hs.named_extends hext hm
      · rw [method_withMethod_self rfl]
        exact .inl (hs.plain_default hp hd)
  | code =>
    refine ⟨hs.apart.of_bodies rfl rfl sameHead_withBody, ?_⟩
    rw [length_methods_withBody]
    exact fun k hk => hs.named_extends hext hk
  | fragment =>
    refine ⟨hs.apart.of_bodies rfl rfl sameHead_withBody, ?_⟩
    rw [length_methods_withBody]
    exact fun k hk => hs.named_extends hext hk

end

theorem Steps.spelled {permit : Permit} (hsteps : Steps permit p q) (hp : p.Coherent)
    (hs : p.Spelled) : q.Spelled :=
  (hsteps.induct hp hs fun _ _ _ hq hs hstep => hstep.spelled hq hs).2

/-- In the beginning every name is plain. -/
theorem PlainNames.spelled (h : p.PlainNames) (hp : p.Wired) (hapart : p.SignaturesApart) :
    p.Spelled :=
  ⟨hapart, fun m hm => .inl (h.methods m (hp.mem_declaredMethods hm))⟩

/-! ## Section 5: Identifiers of twins -/

/-- Types have names without colons. -/
theorem PlainNames.no_colon (h : p.PlainNames) (hext : p.Extends q) (hq : q.Wired)
    (hm : m.index < q.methods.length) : ':' ∉ (q.enclosingName m).toList := by
  obtain ⟨t, ht, henclosing, -⟩ := hq.owner m hm
  simp only [enclosingName, henclosing, hext.typeName]
  intro hmem
  have hchar := List.all_eq_true.mp (h.types t (hext.declared ▸ ht)) ':' hmem
  revert hchar
  decide

/-- No default method has the identifier of a twin. -/
theorem PlainNames.memberIdent_twin {permit : Permit} (h : p.PlainNames) (hsteps : Steps permit p q)
    (hp : p.Coherent) (hapart : p.SignaturesApart) {t : MethodRef} (hd : q.isDefault d = true)
    (ht : q.staticOf? d = some t) (hk : q.isDefault k = true) :
    q.memberIdent t ≠ q.memberIdent k := by
  have hq := hsteps.coherent hp
  have hext := hsteps.extends hp
  have hs := hsteps.spelled hp (h.spelled hp.toWired hapart)
  have htwin := hq.twin d t hd ht
  have hklt := lt_of_isDefault hk
  intro heq
  have hname := memberIdent_inj (h.no_colon hext hq.toWired htwin.lt)
    (h.no_colon hext hq.toWired hklt) (hs.no_bracket hq htwin.lt) (hs.no_bracket hq hklt) heq
  rw [htwin.name] at hname
  have hplain := hs.plain_default hq hk
  rw [← hname] at hplain
  exact not_plain_twin _ hplain

end DefaultLowering.Program
