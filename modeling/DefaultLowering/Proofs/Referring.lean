import DefaultLowering.Proofs.Coverage
import DefaultLowering.Proofs.Registration
import DefaultLowering.Proofs.Relinking

/-!
# Methods that fragments can name

The identifier of a method is put together from texts of the program, and a fragment that names the
method is cut up without them.  The two agree: descriptors may hold what would otherwise be operators,
the beginning of a comment, or nothing that a fragment may hold, but the first closing bracket ends the
reference, and what follows is cut as if it stood alone.

- `lexFrom_shift`: where a text starts matters for the offsets of its tokens only;
- `HasReferenceTexts`: the texts from which a reference can be made, which a twin has from its method;
- `identifiers_agree`: methods and their twins can be named in fragments, and are linked under the
  identifier that is remembered for them.
-/

namespace DefaultLowering

namespace Fragment

/-! ## Section 1: A reference and what follows it -/

/-- The token `n` bytes further on. -/
def Token.shift (n : Nat) (t : Token) : Token := { t with offset := n + t.offset }

/-- Where a text starts matters for the offsets of its tokens only. -/
theorem lexFrom_shift (n offset : Nat) {cs : List Char} {ts : List Token} :
    lexFrom (n + offset) cs = .ok ts ↔
      ∃ ts', lexFrom offset cs = .ok ts' ∧ ts = ts'.map (Token.shift n) := by
  induction hlength : cs.length using Nat.strongRecOn generalizing offset cs ts with
  | ind length ih =>
    cases cs with
    | nil =>
      rw [lexFrom, lexFrom]
      constructor
      · intro h
        cases h
        exact ⟨[], rfl, rfl⟩
      · rintro ⟨ts', h, rfl⟩
        cases h
        rfl
    | cons c cs =>
      -- the first lexeme reaches as far in both places, and what is left is shorter
      have hless : ∀ k, (cs.drop k).length < length := by
        intro k
        rw [← hlength, List.length_drop, List.length_cons]
        omega
      rw [lexFrom_cons_eq_ok]
      constructor
      · rintro ⟨kind, k, tail, hextent, htail, rfl⟩
        rw [Nat.add_assoc, ih _ (hless k) _ rfl] at htail
        obtain ⟨tail', htail', rfl⟩ := htail
        refine ⟨_, lexFrom_cons_eq_ok.mpr ⟨kind, k, tail', hextent, htail', rfl⟩, ?_⟩
        cases kind <;> rfl
      · rintro ⟨ts', hts', rfl⟩
        obtain ⟨kind, k, tail', hextent, htail', rfl⟩ := lexFrom_cons_eq_ok.mp hts'
        refine ⟨kind, k, tail'.map (Token.shift n), hextent, ?_, ?_⟩
        · rw [Nat.add_assoc, ih _ (hless k) _ rfl]
          exact ⟨tail', htail', rfl⟩
        · cases kind <;> rfl

/-- The tokens of a text that stands behind a member reference. -/
def TokenStream.behind (s : TokenStream) (ident : String) : TokenStream where
  tokens := ⟨.member, ident, 0⟩ :: s.tokens.map (Token.shift ident.utf8ByteSize)
  stop := ident.utf8ByteSize + s.stop

/-- The text is cut off as one member reference whatever follows, which is cut as it is alone. -/
def IsReference (ident : String) : Prop :=
  ∀ rest s, lex (ident ++ rest) = .ok s ↔ ∃ s', lex rest = .ok s' ∧ s = s'.behind ident

/-- A reference with a signature ends with it. -/
theorem isReference_of_signature {ident : String} (hword : isMemberWord ident = true)
    (hsignature : isMethodIdent ident = true) : IsReference ident := by
  intro rest s
  have hstands : (⟨.member, ident⟩ : Word).StandsBefore rest.toList :=
    Word.standsBefore hword (.inl hsignature)
  have hstop : Text.byteLength (ident ++ rest).toList = ident.utf8ByteSize + rest.utf8ByteSize := by
    rw [byteLength_toList, String.utf8ByteSize_append]
  have hcut : ∀ ts, lexFrom 0 (ident ++ rest).toList = .ok ts ↔
      ∃ tail, lexFrom 0 rest.toList = .ok tail ∧
        ts = ⟨.member, ident, 0⟩ :: tail.map (Token.shift ident.utf8ByteSize) := by
    intro ts
    rw [String.toList_append]
    show lexFrom 0 ((⟨.member, ident⟩ : Word).text.toList ++ rest.toList) = _ ↔ _
    rw [lexFrom_word hstands, Nat.add_comm, byteLength_toList]
    constructor
    · rintro ⟨tail, htail, rfl⟩
      obtain ⟨tail', htail', rfl⟩ := (lexFrom_shift _ _).mp htail
      exact ⟨tail', htail', rfl⟩
    · rintro ⟨tail, htail, rfl⟩
      exact ⟨_, (lexFrom_shift _ _).mpr ⟨tail, htail, rfl⟩, rfl⟩
  rw [lex_eq_ok, hcut, hstop]
  constructor
  · rintro ⟨⟨tail, htail, htokens⟩, hend⟩
    refine ⟨⟨tail, rest.utf8ByteSize⟩, lex_eq_ok.mpr ⟨htail, (byteLength_toList rest).symm⟩, ?_⟩
    cases s
    cases htokens
    cases hend
    rfl
  · rintro ⟨s', hrest, rfl⟩
    obtain ⟨htail, hend⟩ := lex_eq_ok.mp hrest
    rw [byteLength_toList] at hend
    exact ⟨⟨s'.tokens, htail, rfl⟩, congrArg _ hend⟩

/-! ## Section 2: A fragment that only names a method -/

section

variable {ident : String} (hword : isMemberWord ident = true)

include hword

/-- A reference is no keyword. -/
theorem readable_reference :
    (Stmt.block [.expr (.name ident .absent none)]).all Node.isReadable = true := by
  have hmember := isMemberIdent_of_isMemberWord hword
  have hkeyword : ∀ word, isMemberIdent word = false → ident ≠ word := by
    rintro word hplain rfl
    rw [hmember] at hplain
    cases hplain
  simp [Stmt.all, stmtsAll, Expr.all, Node.isReadable, Node.isProper, Node.isSpelled,
    Node.isLegible, Node.isClear, Expr.words, nameWord, beginsWith, noStrayElse, hword,
    hkeyword "var" (by decide), hkeyword "return" (by decide), hkeyword "if" (by decide),
    Expr.isAbsent, Expr.isNumber, Stmt.isAbsent, joint]

theorem parse_reference (hreference : IsReference ident) (params : List String) (chain : Chain) :
    parse (ident ++ ";") params chain =
      .ok (.declaring "" params (.block [.expr (.name ident .absent none)]), chain) := by
  have hmember := isMemberIdent_of_isMemberWord hword
  have hlex : lex ";" = .ok ⟨[⟨.operator, ";", 0⟩], 1⟩ := by decide +kernel
  have hlexed := (hreference ";" _).mpr ⟨_, hlex, rfl⟩
  have hwords : (⟨.member, ident, 0⟩ :: [(⟨.operator, ";", 0⟩ : Token)].map
      (Token.shift ident.utf8ByteSize)).map Token.word =
        stmtsWords [.expr (.name ident .absent none)] := by
    have hname : nameWord ident = ⟨.member, ident⟩ := by
      unfold nameWord
      rw [if_pos (show Word.isLexeme ⟨.member, ident⟩ = true from hword)]
    rw [stmtsWords, Stmt.words, Expr.words, hname]
    rfl
  have hread := readFragment_of_words (readable_reference hword) hlexed hwords params
  rw [parse_eq]
  rw [hread]
  -- references to members are left as they are, and need no declaration
  have hbind : ∀ around, bindExpr around (.name ident .absent none) =
      pure (.name ident .absent none) := by
    intro around
    rw [bindExpr, if_pos hmember]
  show Except.ok (Function.bind (.mk "" params _ (.block [.expr (.name ident .absent none)])) chain)
    = _
  unfold Function.bind
  rw [bindFunction, bindStmt, bindStmts, bindStmts, bindStmt, hbind]
  rfl

end

end Fragment

namespace Program

open Description Fragment

/-- The body of a native method whose fragment only names the method `k`. -/
def naming (p : Program) (host : MethodRef) (ident : String) (k : MethodRef) : Body :=
  .native (p.method host).pos
    (some (.declaring "" ((p.method host).params.map (·.name))
      (.block [.expr (.name ident .absent none)])))
    [⟨(p.method host).pos, ident, some k⟩]

theorem buildFragment_reference {p : Program} {index : MemberIndex} {ident : String}
    {k : MethodRef} (hword : isMemberWord ident = true) (hmethod : isMethodIdent ident = true)
    (hfound : index.lookup ident = some k) (host : MethodRef) :
    buildFragment p index host (ident ++ ";") =
      .ok (p.setBody host (some (p.naming host ident k))) := by
  have hparse := parse_reference hword (isReference_of_signature hword hmethod)
    ((p.method host).params.map (·.name)) (Chain.ofRoot p.globals)
  have hidents : (Fragment.Function.declaring "" ((p.method host).params.map (·.name))
      (.block [.expr (.name ident .absent none)])).memberIdents.filter isMethodIdent = [ident] := by
    have hmember := isMemberIdent_of_isMemberWord hword
    show (([] ++ [ident] ++ []).filter isMemberIdent).filter isMethodIdent = [ident]
    simp [hmember, hmethod]
  unfold buildFragment
  simp only [hparse, hidents, linkIdents, hfound]
  rfl

/-! ## Section 3: Texts of references -/

/-- The texts of a method from which a reference can be made. -/
structure HasReferenceTexts (p : Program) (m : MethodRef) : Prop where
  type_ne : p.enclosingName m ≠ ""
  type : (p.enclosingName m).toList.all isTypeNameChar = true
  name_ne : (p.method m).name ≠ ""
  name : (p.method m).name.toList.all isNameChar = true
  params : ∀ x ∈ (p.method m).params, ')' ∉ x.type.toList

/-- Dots, brackets and semicolons of descriptors do not end the reference. -/
theorem HasReferenceTexts.isMemberWord {p : Program} {m : MethodRef} (h : p.HasReferenceTexts m) :
    isMemberWord (p.memberIdent m) = true := by
  refine isMemberWord_of_text (toList_memberIdent p m) ?_ ?_ ?_ ?_ ?_
  · exact fun hnil => h.type_ne (String.toList_eq_nil_iff.mp hnil)
  · exact List.all_eq_true.mpr fun c hc =>
      isTypePart_of_isTypeNameChar (List.all_eq_true.mp h.type c hc)
  · exact fun hnil => h.name_ne (String.toList_eq_nil_iff.mp hnil)
  · exact List.all_eq_true.mpr fun c hc =>
      continuesIdent_of_isNameChar (List.all_eq_true.mp h.name c hc)
  · rw [String.toList_join, List.mem_flatMap]
    rintro ⟨d, hd, hbracket⟩
    obtain ⟨x, hx, rfl⟩ := List.mem_map.mp hd
    rw [TypeName.descriptor, String.toList_ofList] at hbracket
    exact not_mem_descriptorChars (h.params x hx) hbracket

/-- A twin has the texts of its method, its ending, and the name of its type once more. -/
theorem HasReferenceTexts.twin {p q : Program} {m t : MethodRef} (h : p.HasReferenceTexts m)
    (htype : q.enclosingName t = p.enclosingName m)
    (hname : (q.method t).name = (p.method m).name ++ twinEnding)
    (hparams : (q.method t).params.map Param.type =
      p.enclosingName m :: (p.method m).params.map Param.type) : q.HasReferenceTexts t := by
  refine ⟨htype ▸ h.type_ne, htype ▸ h.type, ?_, ?_, ?_⟩
  · rw [hname]
    intro hempty
    have hnil := congrArg String.toList hempty
    rw [String.toList_append, String.toList_empty, List.append_eq_nil_iff] at hnil
    exact absurd hnil.2 (by decide)
  · rw [hname, String.toList_append, List.all_append, h.name]
    decide
  · intro x hx hbracket
    have hmem := List.mem_map_of_mem (f := Param.type) hx
    rw [hparams, List.mem_cons, List.mem_map] at hmem
    rcases hmem with hself | ⟨y, hy, hsame⟩
    · -- no type name has a bracket in it
      rw [hself] at hbracket
      cases List.all_eq_true.mp h.type ')' hbracket
    · exact h.params y hy (hsame ▸ hbracket)

/-! ## Section 4: Twins -/

section

variable {p q : Program} {m twin : MethodRef}

theorem IsTwin.hasReferenceTexts (h : p.IsTwin m twin) (hm : p.HasReferenceTexts m) :
    p.HasReferenceTexts twin := by
  refine hm.twin ?_ h.name ?_
  · unfold enclosingName
    rw [h.enclosing]
  · rw [h.params, List.map_cons]

/-- Installing a twin adds it to the interface; apart from that, only the method is changed, and what
    is no business of the declarations. -/
theorem installTwin_eq_updateMethod (p : Program) (m : MethodRef) (iface : TypeRef) (x : Method) :
    ∃ (r : Program) (f : Method → Method), (p.installTwin m iface x).2 = r.updateMethod m f ∧
      r.type = (p.withMethod iface { x with frozen := true }).type ∧
        r.method = (p.withMethod iface { x with frozen := true }).method := by
  refine ⟨_, _, rfl, ?_⟩
  split
  next r hr =>
    obtain rfl | ⟨i, -, -, rfl⟩ := recordStatic_ok hr
    · exact ⟨rfl, rfl⟩
    · exact ⟨rfl, rfl⟩
  next => exact ⟨rfl, rfl⟩

/-- A twin that is installed keeps its name and parameters, and belongs to the interface. -/
theorem installTwin_texts {iface : TypeRef} {x : Method} (hm : m.index < p.methods.length)
    (hiface : iface.index < p.types.length) (hx : x.id = none) :
    (p.installTwin m iface x).2.enclosingName p.next = (p.type iface).name ∧
      ((p.installTwin m iface x).2.method p.next).name = x.name ∧
        ((p.installTwin m iface x).2.method p.next).params = x.params := by
  obtain ⟨r, f, hq, htype, hmethod⟩ := installTwin_eq_updateMethod p m iface x
  have hy : ({ x with frozen := true } : Method).id = none := hx
  have hne : p.next ≠ m := (ne_next_of_lt hm).symm
  have hnew : (r.updateMethod m f).method p.next = { x with
      frozen := true
      enclosing := some iface
      id := if (p.type iface).attached then some p.arena.length else none } := by
    rw [method_updateMethod_ne f hne, hmethod, method_withMethod_self hy]
  have hname : (r.type iface).name = (p.type iface).name := by
    rw [htype, type_withMethod_self hy hiface]
  rw [hq]
  refine ⟨?_, by rw [hnew], by rw [hnew]⟩
  unfold enclosingName
  rw [hnew]
  exact hname

/-- The twin that comes of a request has the texts of a reference if its method has them. -/
theorem requestTwin_hasReferenceTexts {r : Relocation} (h : p.requestTwin m = .made twin q r)
    (hm : p.HasReferenceTexts m) : q.HasReferenceTexts twin := by
  obtain ⟨hdefault, iface, native, body, henclosing, rfl, rfl⟩ := installTwin_of_made h
  have hname : (p.type iface).name = p.enclosingName m := by
    unfold enclosingName
    rw [henclosing]
  have hiface : iface.index < p.types.length := by
    obtain ⟨t, ht, hinterface, -⟩ := isDefault_iff.mp hdefault
    rw [henclosing, Option.some.injEq] at ht
    exact lt_of_isInterface (ht ▸ hinterface)
  obtain ⟨htype, htwin, hparams⟩ := installTwin_texts (lt_of_enclosing henclosing) hiface
    (x := { twinHead (p.method m) (p.type iface).name with native := native, body := body }) rfl
  refine hm.twin (htype.trans hname) htwin ?_
  -- the receiver comes first, and its type is the interface
  rw [← hname]
  exact congrArg (List.map Param.type) hparams

end

/-! ## Section 5: Methods that can be named -/

/-- A fragment that only names the method can be given to every method, and there is an entry for the
    method in the linkage of every fragment that names it. -/
structure LinksUnder (p : Program) (index : MemberIndex) (ident : String)
    (k : MethodRef) : Prop where
  alone : ∀ host, buildFragment p index host (ident ++ ";") =
    .ok (p.setBody host (some (p.naming host ident k)))
  entry : ∀ pos (f : Fragment.Function) refs,
    linkIdents index pos (f.memberIdents.filter isMethodIdent) [] = .ok refs →
      ident ∈ f.memberIdents → ⟨pos, ident, some k⟩ ∈ refs

/-- Fragments can name the method, by the identifier that is remembered for it. -/
structure Referable (p : Program) (m : MethodRef) : Prop where
  /-- The identifier is found whatever stands behind it. -/
  reference : IsReference (p.memberIdent m)
  /-- Where keys tell methods apart, the identifier is linked to the first method that has it. -/
  linked : p.Wired → p.KeysApart → m ∈ p.declaredMethods → ∀ c : NameCache, c.Faithful p →
    (c.identOf p m).1 = p.memberIdent m ∧ ∃ k, p.denoted (p.memberIdent m) = some k ∧
      p.LinksUnder (c.index p).1 (p.memberIdent m) k

theorem HasReferenceTexts.referable {p : Program} {m : MethodRef} (h : p.HasReferenceTexts m) :
    p.Referable m := by
  have hword := h.isMemberWord
  have hmethod := isMethodIdent_memberIdent p m
  refine ⟨isReference_of_signature hword hmethod, ?_⟩
  intro hp hkeys hm c hc
  refine ⟨(NameCache.identOf_faithful hkeys hc (hp.lt_of_mem_declaredMethods hm)).1, ?_⟩
  obtain ⟨k, hk⟩ := exists_denoted hm
  have hlookup : (c.index p).1.lookup (p.memberIdent m) = some k := by
    rw [NameCache.lookup_index hkeys hp hc, hk]
  refine ⟨k, hk, ⟨fun host => buildFragment_reference hword hmethod hlookup host, ?_⟩⟩
  intro pos f refs hlinked hident
  rw [(tabulates_of_linkIdents hlinked).entries, ← hlookup, List.mem_map]
  exact ⟨_, List.mem_eraseDups.mpr (List.mem_filter.mpr ⟨hident, hmethod⟩), rfl⟩

/-- Identifiers and fragments agree.  A method can be named whatever its parameters are, as long as no
    bracket closes in their types, and so can its twin, be it made on request or known before: its
    identifier is cut off as one reference in front of every text, and it is linked. -/
theorem identifiers_agree {p : Program} {m : MethodRef} (h : p.HasReferenceTexts m) :
    p.Referable m ∧
      (∀ twin q r, p.requestTwin m = .made twin q r → q.Referable twin) ∧
      ∀ twin, p.Coherent → p.isDefault m = true → p.staticOf? m = some twin → p.Referable twin := by
  refine ⟨h.referable, ?_, ?_⟩
  · intro twin q r hmade
    exact (requestTwin_hasReferenceTexts hmade h).referable
  · intro twin hp hdefault hknown
    exact ((hp.twin m twin hdefault hknown).hasReferenceTexts h).referable

/-- An interface with a qualified name, and a default method with a parameter of an array type. -/
def ledger : Description where
  version := "1.0"
  types := [
    { name := "org.acme.Ledger"
      kind := "interface"
      methods := [
        { name := "post"
          params := [{ name := "entries", type := "org.acme.Entry[]" }, { name := "n", type := "int" }]
          returns := "String"
          body := .stmts 4 [.ret 5 (.record 5 (some "\"a\"") "" "" .absent [])] }] }]

/-- Its twin can be named, although the semicolons and brackets of its descriptors mean something else
    in a fragment. -/
theorem identifiers_agree_ledger :
    ∃ q r, (ofDescription ledger).HasReferenceTexts ⟨0⟩ ∧
      (ofDescription ledger).requestTwin ⟨0⟩ = .made ⟨1⟩ q r ∧
      q.memberIdent ⟨1⟩ = "@org.acme.Ledger::post$static(Lorg/acme/Ledger;[Lorg/acme/Entry;I)" ∧
      IsReference (q.memberIdent ⟨1⟩) ∧
      q.LinksUnder (({} : NameCache).index q).1 (q.memberIdent ⟨1⟩) ⟨1⟩ := by
  have hloaded : (ofDescription ledger).Loaded := loaded_ofDescription (by decide +kernel)
  have hp := hloaded.fresh.toCoherent
  have htexts : (ofDescription ledger).HasReferenceTexts ⟨0⟩ :=
    ⟨by decide +kernel, by decide +kernel, by decide +kernel, by decide +kernel, by decide +kernel⟩
  have hdefault : (ofDescription ledger).isDefault ⟨0⟩ = true := by decide +kernel
  have hnone : (ofDescription ledger).staticOf? ⟨0⟩ = none := by decide +kernel
  have hmade : (ofDescription ledger).requestTwin ⟨0⟩ =
      .made ⟨1⟩ ((ofDescription ledger).withTwin ⟨0⟩) ⟨⟨0⟩, ⟨1⟩⟩ := by
    rw [requestTwin_eq hp hdefault, hnone]
    rfl
  have htwin := (identifiers_agree htexts).2.1 _ _ _ hmade
  -- keys tell the twin from its method
  have hq := (hp.withTwin hdefault hnone).toWired
  have hkeys : ((ofDescription ledger).withTwin ⟨0⟩).KeysApart := by
    refine hq.keysApart ?_
    unfold SignaturesApart ApartIn
    decide +kernel
  obtain ⟨-, k, hk, hlinks⟩ := htwin.linked hq hkeys (by decide +kernel) {}
    (NameCache.faithful_empty _)
  have hself : ((ofDescription ledger).withTwin ⟨0⟩).denoted
      (((ofDescription ledger).withTwin ⟨0⟩).memberIdent ⟨1⟩) = some ⟨1⟩ := by decide +kernel
  obtain rfl : ⟨1⟩ = k := Option.some.inj (hself.symm.trans hk)
  exact ⟨_, _, htexts, hmade, by decide +kernel, htwin.reference, hlinks⟩

end Program

end DefaultLowering
