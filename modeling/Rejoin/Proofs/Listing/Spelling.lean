import Rejoin.Proofs.Listing.Printing

/-!
# Names in a text that was read

Every token of a scanned text stands at the bytes it is recorded with, spelled as the lexical rules
ask. The grammar takes all names of a listing from tokens, so the names of a listing that was read
from a text can be read again: `wellNamed_of_parseTree`.
-/

namespace Rejoin.Listing

/-- The text of a token that is a name. A label is written with a colon behind it. -/
def Token.WrittenAs : Token → List Char → Prop
  | .value name, text => text = name.toList ∧ IsSigned '%' name
  | .symbol name, text => text = name.toList ∧ IsSigned '@' name
  | .ident name, text => text = name.toList ∧ IsFreeWord name
  | .label name, text => text = name.toList ++ [':'] ∧ IsWord name.toList
  | .arrow, _ | .br, _ | .comma, _ | .func, _ | .int _, _ | .jmp, _ | .opening, _ | .closing, _
  | .ret, _ => True

/-- Some text is read as this token. -/
def Token.Spelled (token : Token) : Prop :=
  ∃ text, token.WrittenAs text

/-- The lexeme that is taken for a token is a way to write it. -/
theorem IsLexeme.writtenAs {lexeme : List Char} {token : Token} (h : IsLexeme lexeme (some token))
    (hp : Prefers token) : token.WrittenAs lexeme := by
  generalize hwhat : some token = what at h
  cases h with
  | blanks | comment => cases hwhat
  | fixed hmem =>
    obtain rfl := Option.some.inj hwhat
    simp only [fixedTokens, List.mem_cons, Prod.mk.injEq, List.not_mem_nil, or_false] at hmem
    rcases hmem with ⟨-, rfl⟩ | ⟨-, rfl⟩ | ⟨-, rfl⟩ | ⟨-, rfl⟩ | ⟨-, rfl⟩ | ⟨-, rfl⟩ | ⟨-, rfl⟩ |
      ⟨-, rfl⟩ <;> trivial
  | int | negInt =>
    obtain rfl := Option.some.inj hwhat
    trivial
  | value hne hbody | symbol hne hbody =>
    obtain rfl := Option.some.inj hwhat
    exact ⟨String.toList_ofList.symm, _, String.toList_ofList, hne, hbody⟩
  | ident hword =>
    obtain rfl := Option.some.inj hwhat
    refine ⟨String.toList_ofList.symm, by rwa [String.toList_ofList], fun hreserved => ?_⟩
    -- a reserved word is read as a fixed token
    have hfixed : ∀ name ∈ ["br", "func", "jmp", "ret"], ∃ entry ∈ fixedTokens, entry.1 = name := by
      decide +kernel
    obtain ⟨entry, hentry, hname⟩ := hfixed _ hreserved
    exact hp _ rfl entry hentry hname
  | label hword =>
    obtain rfl := Option.some.inj hwhat
    exact ⟨by rw [String.toList_ofList], by rwa [String.toList_ofList]⟩

/-- Every token of a scan stands in the text at the bytes it is recorded with. -/
theorem Scans.exists_lexeme {position : Nat} {text : List Char} {tokens : List (Spanned Token)}
    {ending : Ending} (h : Scans position text tokens ending) {token : Spanned Token}
    (hmem : token ∈ tokens) :
    ∃ before lexeme after, text = before ++ (lexeme ++ after) ∧ token.val.WrittenAs lexeme ∧
      token.span = ⟨position + byteLength before,
        position + byteLength before + byteLength lexeme⟩ := by
  induction h with
  | done | stuck => cases hmem
  | @skip position lexeme rest tokens ending _ _ ih =>
    obtain ⟨before, found, after, rfl, hfound, hspan⟩ := ih hmem
    refine ⟨lexeme ++ before, found, after, by simp, hfound, ?_⟩
    rw [hspan, byteLength_append, Nat.add_assoc position]
  | @token position lexeme rest first tokens ending hlongest _ ih =>
    rcases List.mem_cons.mp hmem with rfl | hmem
    · exact ⟨[], lexeme, rest, rfl, hlongest.isLexeme.writtenAs (hlongest.prefers first rfl),
        by simp⟩
    · obtain ⟨before, found, after, rfl, hfound, hspan⟩ := ih hmem
      refine ⟨lexeme ++ before, found, after, by simp, hfound, ?_⟩
      rw [hspan, byteLength_append, Nat.add_assoc position]

/-- The tokens of a scan are spelled by the text. -/
theorem Scans.spelled {position : Nat} {text : List Char} {tokens : List (Spanned Token)}
    {ending : Ending} (h : Scans position text tokens ending) :
    ∀ token ∈ tokens.map Spanned.val, token.Spelled := by
  intro token hmem
  obtain ⟨spanned, hspanned, rfl⟩ := List.mem_map.mp hmem
  obtain ⟨-, lexeme, -, -, hwritten, -⟩ := h.exists_lexeme hspanned
  exact ⟨lexeme, hwritten⟩

/-! ## Names in phrases -/

/-- An identifier that is spelled is a free word. -/
theorem Token.Spelled.isFreeWord {name : String} (h : (Token.ident name).Spelled) :
    IsFreeWord name := by
  obtain ⟨text, -, hword⟩ := h
  exact hword

/-- A value that is spelled has its percent sign. -/
theorem Token.Spelled.isSigned_value {name : String} (h : (Token.value name).Spelled) :
    IsSigned '%' name := by
  obtain ⟨text, -, hsigned⟩ := h
  exact hsigned

theorem Token.Spelled.isSigned_symbol {name : String} (h : (Token.symbol name).Spelled) :
    IsSigned '@' name := by
  obtain ⟨text, -, hsigned⟩ := h
  exact hsigned

/-- An operand that is spelled can be read. -/
theorem Token.IsOperand.wellNamed {token : Token} {operand : Operand} (h : token.IsOperand operand)
    (hspelled : token.Spelled) : WellNamedOperand operand := by
  cases h with
  | value name => exact hspelled.isSigned_value
  | int n => trivial
  | symbol name => exact hspelled.isSigned_symbol

theorem OperandList.wellNamed {tokens : List Token} {operands : List Operand}
    (h : OperandList tokens operands) (hspelled : ∀ token ∈ tokens, token.Spelled) :
    ∀ operand ∈ operands, WellNamedOperand operand := by
  induction h with
  | nil => exact nofun
  | last hoperand =>
    exact List.forall_mem_singleton.mpr (hoperand.wellNamed (hspelled _ List.mem_cons_self))
  | cons hoperand _ ih =>
    obtain ⟨hfirst, hrest⟩ := List.forall_mem_cons.mp hspelled
    obtain ⟨-, hrest⟩ := List.forall_mem_cons.mp hrest
    exact List.forall_mem_cons.mpr ⟨hoperand.wellNamed hfirst, ih hrest⟩

/-- The names in an instruction are the tokens it is made of. -/
theorem InstPhrase.wellNamed {tokens : List Token} {inst : InstDef String}
    (h : InstPhrase tokens inst) (hspelled : ∀ token ∈ tokens, token.Spelled) :
    WellNamedInst inst := by
  cases h with
  | branch onTrue onFalse =>
    exact ⟨nofun, (hspelled (.ident onTrue) (by simp)).isFreeWord,
      (hspelled (.ident onFalse) (by simp)).isFreeWord⟩
  | branchOn onTrue onFalse hcond =>
    refine ⟨?_, (hspelled (.ident onTrue) (by simp)).isFreeWord,
      (hspelled (.ident onFalse) (by simp)).isFreeWord⟩
    rintro _ ⟨⟩
    exact hcond.wellNamed (hspelled _ (by simp))
  | jump target => exact (hspelled (.ident target) (by simp)).isFreeWord
  | ret => exact nofun
  | retValue hvalue =>
    rintro _ ⟨⟩
    exact hvalue.wellNamed (hspelled _ (by simp))
  | op opcode hoperands hresult =>
    rw [List.forall_mem_cons, List.forall_mem_append] at hspelled
    obtain ⟨hopcode, htokens, hafter⟩ := hspelled
    refine ⟨hopcode.isFreeWord, hoperands.wellNamed htokens, ?_⟩
    cases hresult with
    | none => exact nofun
    | some name =>
      rintro _ ⟨⟩
      exact (hafter (.value name) (by simp)).isSigned_value

/-- What holds of each phrase whose tokens are spelled holds of all phrases in a row. -/
theorem Phrases.forall_of_spelled {α : Type} {phrase : List Token → α → Prop} {P : α → Prop}
    (hphrase : ∀ tokens a, phrase tokens a → (∀ token ∈ tokens, token.Spelled) → P a)
    {tokens : List Token} {all : List α} (h : Phrases phrase tokens all)
    (hspelled : ∀ token ∈ tokens, token.Spelled) : ∀ a ∈ all, P a := by
  induction h with
  | nil => exact nofun
  | cons hfirst _ ih =>
    rw [List.forall_mem_append] at hspelled
    exact List.forall_mem_cons.mpr ⟨hphrase _ _ hfirst hspelled.1, ih hspelled.2⟩

/-- A block whose tokens are spelled can be read. -/
theorem BlockPhrase.wellNamed {tokens : List Token} {block : PlainBlock}
    (h : BlockPhrase tokens block) (hspelled : ∀ token ∈ tokens, token.Spelled) :
    WellNamedBlock block := by
  cases h with
  | intro label hinsts =>
    obtain ⟨⟨text, -, hword⟩, htokens⟩ := List.forall_mem_cons.mp hspelled
    exact ⟨hword, hinsts.forall_of_spelled (fun _ _ hinst => hinst.wellNamed) htokens⟩

theorem FuncPhrase.wellNamed {tokens : List Token} {func : PlainFunc} (h : FuncPhrase tokens func)
    (hspelled : ∀ token ∈ tokens, token.Spelled) :
    IsSigned '@' func.1 ∧ ∀ block ∈ func.2, WellNamedBlock block := by
  cases h with
  | intro name hblocks =>
    simp only [List.forall_mem_cons, List.forall_mem_append] at hspelled
    obtain ⟨-, hname, -, htokens, -⟩ := hspelled
    exact ⟨hname.isSigned_symbol,
      hblocks.forall_of_spelled (fun _ _ hblock => hblock.wellNamed) htokens⟩

/-- All names in a listing that was read from a text can be read again. -/
theorem wellNamed_of_parseTree {text : String} {tree : Tree} (h : parseTree text = .ok tree) :
    tree.WellNamed := by
  have hscan := scans_lexFrom 0 text.toList
  obtain ⟨-, -, hderives⟩ := (exists_parseTree_eq_ok_iff hscan).mp ⟨tree, h, rfl⟩
  exact hderives.forall_of_spelled (fun _ _ hfunc => hfunc.wellNamed) hscan.spelled

end Rejoin.Listing
