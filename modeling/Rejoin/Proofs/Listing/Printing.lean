import Rejoin.Listing.Printer
import Rejoin.Proofs.Listing.Parsing

/-!
# Printed listings are read back

A listing whose names are spelled as the lexical rules ask is printed as a text that lexes to the
tokens of the listing, whatever stands beside each name. `Reads` says this of a piece of a text in
front of the rest of it, and is put together piece by piece. The tokens derive the listing, so the
printed text is parsed to it.
-/

namespace Rejoin.Listing

/-! ## Well-named listings -/

/-- A sign and a nonempty run of word characters. -/
def IsSigned (sign : Char) (name : String) : Prop :=
  ∃ body, name.toList = sign :: body ∧ body ≠ [] ∧ ∀ c ∈ body, isWordChar c = true

/-- A word that is not reserved. -/
def IsFreeWord (name : String) : Prop :=
  IsWord name.toList ∧ name ∉ ["br", "func", "jmp", "ret"]

/-- The names in an operand can be read. -/
def WellNamedOperand : Operand → Prop
  | .value name => IsSigned '%' name
  | .int _ => True
  | .symbol name => IsSigned '@' name

/-- The names in an instruction can be read. -/
def WellNamedInst : InstDef String → Prop
  | .op opcode operands result => IsFreeWord opcode ∧ (∀ o ∈ operands, WellNamedOperand o) ∧
      ∀ name, result = some name → IsSigned '%' name
  | .branch cond onTrue onFalse =>
    (∀ o, cond = some o → WellNamedOperand o) ∧ IsFreeWord onTrue ∧ IsFreeWord onFalse
  | .jump target => IsFreeWord target
  | .ret value => ∀ o, value = some o → WellNamedOperand o

/-- The names in a block can be read. -/
def WellNamedBlock (block : PlainBlock) : Prop :=
  IsWord block.1.toList ∧ ∀ inst ∈ block.2, WellNamedInst inst

/-- All names in a listing can be read. -/
def Tree.WellNamed (listing : Tree) : Prop :=
  ∀ func ∈ listing.plain, IsSigned '@' func.1 ∧ ∀ block ∈ func.2, WellNamedBlock block

/-! ## Tokens of a listing -/

/-- The token of an operand. -/
def operandToken : Operand → Token
  | .value name => .value name
  | .int n => .int n.toInt
  | .symbol name => .symbol name

/-- The tokens of operands, with commas between them. -/
def operandTokens : List Operand → List Token
  | [] => []
  | first :: others => operandToken first :: others.flatMap fun o => [.comma, operandToken o]

/-- The tokens of an instruction. -/
def instTokens : InstDef String → List Token
  | .op opcode operands none => .ident opcode :: operandTokens operands
  | .op opcode operands (some name) =>
    .ident opcode :: (operandTokens operands ++ [.arrow, .value name])
  | .branch none onTrue onFalse => [.br, .ident onTrue, .comma, .ident onFalse]
  | .branch (some o) onTrue onFalse =>
    [.br, operandToken o, .comma, .ident onTrue, .comma, .ident onFalse]
  | .jump target => [.jmp, .ident target]
  | .ret none => [.ret]
  | .ret (some o) => [.ret, operandToken o]

/-- The tokens of a block. -/
def blockTokens (block : PlainBlock) : List Token :=
  .label block.1 :: block.2.flatMap instTokens

/-- The tokens of a function. -/
def funcTokens (func : PlainFunc) : List Token :=
  .func :: .symbol func.1 :: .opening :: (func.2.flatMap blockTokens ++ [.closing])

/-- The token of an operand is read as that operand; an integer survives the way there and back. -/
theorem isOperand_operandToken (operand : Operand) : (operandToken operand).IsOperand operand := by
  cases operand with
  | value name => exact .value name
  | symbol name => exact .symbol name
  | int n =>
    -- the rule reads any integer modulo 2⁶⁴, and `n` is its own remainder
    have h := Token.IsOperand.int n.toInt
    rwa [Int64.ofInt_toInt] at h

theorem operandList_operandTokens (operands : List Operand) :
    OperandList (operandTokens operands) operands := by
  induction operands with
  | nil => exact .nil
  | cons first others ih =>
    cases others with
    | nil => exact .last (isOperand_operandToken first)
    | cons second others => exact .cons (isOperand_operandToken first) ih

/-- The tokens of an instruction form a phrase for it, one case for each form an instruction is
written in. -/
theorem instPhrase_instTokens (inst : InstDef String) : InstPhrase (instTokens inst) inst := by
  fun_cases instTokens inst with
  | case1 opcode operands =>
    have h := InstPhrase.op opcode (operandList_operandTokens operands) .none
    rwa [List.append_nil] at h
  | case2 opcode operands name => exact .op opcode (operandList_operandTokens operands) (.some name)
  | case3 onTrue onFalse => exact .branch onTrue onFalse
  | case4 operand onTrue onFalse => exact .branchOn onTrue onFalse (isOperand_operandToken operand)
  | case5 target => exact .jump target
  | case6 => exact .ret
  | case7 operand => exact .retValue (isOperand_operandToken operand)

theorem phrases_flatMap {α : Type} {phrase : List Token → α → Prop} {tokens : α → List Token}
    (h : ∀ a, phrase (tokens a) a) (all : List α) : Phrases phrase (all.flatMap tokens) all := by
  induction all with
  | nil => exact .nil
  | cons a all ih => exact .cons (h a) ih

/-- The tokens of a listing derive it. -/
theorem derives_funcTokens (listing : List PlainFunc) :
    Derives (listing.flatMap funcTokens) listing := by
  have hblock (block : PlainBlock) : BlockPhrase (blockTokens block) block :=
    .intro block.1 (phrases_flatMap instPhrase_instTokens block.2)
  have hfunc (func : PlainFunc) : FuncPhrase (funcTokens func) func :=
    .intro func.1 (phrases_flatMap hblock func.2)
  exact phrases_flatMap hfunc listing

/-- An integer among the tokens of an instruction is a 64-bit integer. -/
theorem exists_of_int_mem_instTokens {n : Int} {inst : InstDef String}
    (h : .int n ∈ instTokens inst) : ∃ m : Int64, n = m.toInt := by
  have hoperand {o : Operand} (ho : .int n = operandToken o) : ∃ m : Int64, n = m.toInt := by
    cases o with
    | int m => exact ⟨m, Token.int.inj ho⟩
    | value | symbol => cases ho
  have hoperands {os : List Operand} (hos : .int n ∈ operandTokens os) :
      ∃ m : Int64, n = m.toInt := by
    cases os with
    | nil => cases hos
    | cons first others =>
      simp only [operandTokens, List.mem_cons, List.mem_flatMap, reduceCtorEq, List.not_mem_nil,
        or_false, false_or] at hos
      rcases hos with ho | ⟨o, -, ho⟩ <;> exact hoperand ho
  -- in every form the integer is an operand, alone or in the list of operands
  fun_cases instTokens inst <;> simp [instTokens] at h <;> grind

/-- Every 64-bit integer can be read back. -/
theorem literalsFit_funcTokens (listing : List PlainFunc) :
    LiteralsFit (listing.flatMap funcTokens) := by
  intro n hn
  obtain ⟨func, -, hn⟩ := List.mem_flatMap.mp hn
  simp only [funcTokens, blockTokens, List.mem_cons, List.mem_append, List.mem_flatMap,
    reduceCtorEq, List.not_mem_nil, or_false, false_or] at hn
  obtain ⟨block, -, inst, -, hn⟩ := hn
  obtain ⟨m, rfl⟩ := exists_of_int_mem_instTokens hn
  have hlow := m.le_toInt
  have hhigh := m.toInt_lt
  omega

/-! ## Pieces of a text -/

/-- A token ends in front of this text: it is empty, or starts with a blank or a comma. -/
def Breaks (text : List Char) : Prop :=
  ∀ c, text.head? = some c → isGapChar c = true ∨ c = ','

/-- In front of `rest`, the lexer reads `text` as these tokens. -/
def Reads (text : List Char) (tokens : List Token) (rest : List Char) : Prop :=
  ∀ position, ∃ spanned : List (Spanned Token), spanned.map Spanned.val = tokens ∧
    lexFrom 0 position (text ++ rest) =
      ⟨spanned ++ (lexFrom 0 (position + byteLength text) rest).tokens,
        (lexFrom 0 (position + byteLength text) rest).ending⟩

variable {text first second rest lexeme : List Char} {tokens others : List Token} {token : Token}

@[simp]
theorem breaks_nil : Breaks [] := nofun

@[simp]
theorem breaks_cons {c : Char} : Breaks (c :: rest) ↔ isGapChar c = true ∨ c = ',' := by
  simp [Breaks]

/-- Pieces that follow each other are read as their tokens in a row. The first piece is read in
front of the second. -/
theorem Reads.append (hfirst : Reads first tokens (second ++ rest))
    (hsecond : Reads second others rest) : Reads (first ++ second) (tokens ++ others) rest := by
  intro position
  obtain ⟨spanned, rfl, hspanned⟩ := hfirst position
  obtain ⟨more, rfl, hmore⟩ := hsecond (position + byteLength first)
  refine ⟨spanned ++ more, List.map_append, ?_⟩
  rw [List.append_assoc, hspanned, hmore, byteLength_append, Nat.add_assoc, List.append_assoc]

theorem reads_nil (rest : List Char) : Reads [] [] rest := by
  intro position
  exact ⟨[], rfl, by simp⟩

/-- Blanks give no tokens. -/
theorem reads_blanks (h : ∀ c ∈ text, isGapChar c = true) (rest : List Char) :
    Reads text [] rest := by
  intro position
  exact ⟨[], rfl, by rw [lexFrom_blanks h]; rfl⟩

/-- A piece is read as one token if the lexer takes it whole. -/
theorem reads_of_lexeme? (hne : lexeme ≠ [])
    (h : lexeme? (lexeme ++ rest) = some (.token token lexeme.length)) :
    Reads lexeme [token] rest := by
  intro position
  exact ⟨[⟨token, ⟨position, position + byteLength lexeme⟩⟩], rfl, lexFrom_token hne h position⟩

/-- The characters that may stand in a token after its first one. -/
def isTailChar (c : Char) : Bool :=
  isWordChar c || c == ':' || c == '>'

theorem isTailChar_of_isWordChar {c : Char} (h : isWordChar c = true) : isTailChar c = true := by
  simp [isTailChar, h]

/-- A token that has begun does not go over the end of a line. -/
theorem ne_newline_of_isTailChar {c : Char} (h : isTailChar c = true) : c ≠ '\n' := by
  rintro rfl
  exact absurd h (by decide)

/-- A text that could continue a token is no break. -/
theorem not_breaks_of_isTailChar {c : Char} (h : isTailChar c = true) : ¬Breaks (c :: rest) := by
  rw [breaks_cons, isGapChar_iff]
  rintro (hc | rfl)
  · exact not_mem_of_class (by decide) h hc
  · exact absurd h (by decide)

/-- A token does not extend over lines, and only its first character can be a sign. -/
theorem IsLexeme.spelling (h : IsLexeme lexeme (some token)) :
    (∀ c ∈ lexeme, c ≠ '\n') ∧ ∀ c ∈ lexeme.tail, isTailChar c = true := by
  have hword {text : List Char} (hall : ∀ c ∈ text, isWordChar c = true) :
      (∀ c ∈ text, c ≠ '\n') ∧ ∀ c ∈ text, isTailChar c = true :=
    ⟨fun c hc => ne_newline_of_isTailChar (isTailChar_of_isWordChar (hall c hc)),
      fun c hc => isTailChar_of_isWordChar (hall c hc)⟩
  generalize hwhat : some token = what at h
  cases h with
  | blanks | comment => cases hwhat
  | @fixed text _ hmem =>
    -- there are few fixed tokens, so they are looked at one by one
    have hall : ∀ entry ∈ fixedTokens, entry.1.toList.all (· != '\n') = true ∧
        entry.1.toList.tail.all isTailChar = true := by decide +kernel
    simpa using hall _ hmem
  | value hne hbody | symbol hne hbody =>
    exact ⟨List.forall_mem_cons.mpr ⟨by decide, (hword hbody).1⟩, (hword hbody).2⟩
  | int hspells =>
    have hall := hword fun c hc => isWordChar_of_isDigit (hspells.isDigit c hc)
    exact ⟨hall.1, fun c hc => hall.2 c (List.mem_of_mem_tail hc)⟩
  | negInt hspells =>
    have hall := hword fun c hc => isWordChar_of_isDigit (hspells.isDigit c hc)
    exact ⟨List.forall_mem_cons.mpr ⟨by decide, hall.1⟩, hall.2⟩
  | ident hident =>
    have hall := hword hident.isWordChar
    exact ⟨hall.1, fun c hc => hall.2 c (List.mem_of_mem_tail hc)⟩
  | label hlabel =>
    have hall := hword hlabel.isWordChar
    -- the colon behind the word is the one character of a label that is no word character
    refine ⟨List.forall_mem_append.mpr ⟨hall.1, by simp⟩, fun c hc => ?_⟩
    have hc := List.mem_of_mem_tail hc
    exact List.forall_mem_append.mpr ⟨hall.2, by simp [isTailChar]⟩ c hc

/-- A token is read where it is followed by something that cannot belong to it. -/
theorem IsLexeme.reads (h : IsLexeme lexeme (some token)) (hp : Prefers token)
    (hrest : Breaks rest) : Reads lexeme [token] rest := by
  refine reads_of_lexeme? h.ne_nil (h.lexeme?_eq hp fun found kind hfound hstarts => ?_)
  by_contra! hlt
  -- a longer token would go on with the blank or comma that follows
  obtain ⟨more, rfl⟩ : lexeme <+: found :=
    List.prefix_of_prefix_length_le (List.prefix_append _ rest) hstarts hlt.le
  obtain ⟨c, more, rfl⟩ : ∃ c tail, more = c :: tail := by
    refine List.exists_cons_of_ne_nil ?_
    rintro rfl
    simp at hlt
  have htail : isTailChar c = true := by
    refine hfound.spelling.2 c ?_
    rw [List.tail_append_of_ne_nil h.ne_nil]
    simp
  obtain ⟨after, rfl⟩ := (List.prefix_append_right_inj _).mp hstarts
  exact absurd hrest (not_breaks_of_isTailChar htail)

/-! ## Names, operands and instructions -/

/-- A name after a percent sign is the lexeme of a value. -/
theorem IsSigned.isLexeme_value {name : String} (h : IsSigned '%' name) :
    IsLexeme name.toList (some (.value name)) := by
  obtain ⟨body, hname, hne, hbody⟩ := h
  -- the rule speaks of characters, the name is a string
  have hlexeme := IsLexeme.value hne hbody
  rwa [← hname, String.ofList_toList] at hlexeme

theorem IsSigned.isLexeme_symbol {name : String} (h : IsSigned '@' name) :
    IsLexeme name.toList (some (.symbol name)) := by
  obtain ⟨body, hname, hne, hbody⟩ := h
  have hlexeme := IsLexeme.symbol hne hbody
  rwa [← hname, String.ofList_toList] at hlexeme

/-- A word that is not reserved is the lexeme of an identifier. -/
theorem IsFreeWord.isLexeme {name : String} (h : IsFreeWord name) :
    IsLexeme name.toList (some (.ident name)) := by
  have hlexeme := IsLexeme.ident h.1
  rwa [String.ofList_toList] at hlexeme

/-- No reserved word is as long as a free word and preferred to it. -/
theorem IsFreeWord.prefers {name : String} (h : IsFreeWord name) : Prefers (.ident name) := by
  have hprefers := prefers_wordToken h.1
  have hfree := h.2
  simp only [List.mem_cons, List.not_mem_nil, or_false, not_or] at hfree
  unfold wordToken at hprefers
  simpa only [String.ofList_toList, hfree, if_false] using hprefers

/-- A printed integer is the lexeme of that integer, with or without a sign. -/
theorem isLexeme_signedDecimal (n : Int) : IsLexeme (signedDecimal n).toList (some (.int n)) := by
  cases n with
  | ofNat m => exact .int (spells_decimal m)
  | negSucc m =>
    simpa [signedDecimal, Int.negSucc_eq] using IsLexeme.negInt (spells_decimal (m + 1))

/-- A printed operand is the lexeme of its token. -/
theorem WellNamedOperand.isLexeme {operand : Operand} (h : WellNamedOperand operand) :
    IsLexeme operand.render.toList (some (operandToken operand)) := by
  cases operand with
  | value name => exact IsSigned.isLexeme_value h
  | int n => exact isLexeme_signedDecimal n.toInt
  | symbol name => exact IsSigned.isLexeme_symbol h

theorem prefers_operandToken (operand : Operand) : Prefers (operandToken operand) := by
  cases operand <;> exact nofun

theorem Reads.spaced (h : Reads text tokens rest) : Reads (' ' :: text) tokens rest :=
  (reads_blanks (List.forall_mem_singleton.mpr rfl) _).append h

theorem reads_comma (rest : List Char) : Reads [','] [.comma] rest :=
  reads_of_lexeme? (List.cons_ne_nil _ _) rfl

theorem reads_opening (rest : List Char) : Reads ['\x7b'] [.opening] rest :=
  reads_of_lexeme? (List.cons_ne_nil _ _) rfl

theorem reads_closing (rest : List Char) : Reads ['\x7d'] [.closing] rest :=
  reads_of_lexeme? (List.cons_ne_nil _ _) rfl

/-- A comma and a blank in front of a piece add the token of the comma. -/
theorem Reads.after_comma (h : Reads text tokens rest) :
    Reads (',' :: ' ' :: text) (.comma :: tokens) rest :=
  (reads_comma _).append h.spaced

/-- A lexeme in front of a piece adds its token, provided the piece breaks it off. -/
theorem IsLexeme.reads_append (h : IsLexeme lexeme (some token)) (hp : Prefers token)
    (hbreaks : Breaks (text ++ rest)) (hreads : Reads text tokens rest) :
    Reads (lexeme ++ text) (token :: tokens) rest :=
  (h.reads hp hbreaks).append hreads

/-- Fixed tokens are read where a break follows. -/
theorem reads_fixed_append {mark : String} (h : (mark, token) ∈ fixedTokens)
    (hp : ∀ name, token ≠ .ident name) (hbreaks : Breaks (text ++ rest))
    (hreads : Reads text tokens rest) : Reads (mark.toList ++ text) (token :: tokens) rest :=
  (IsLexeme.fixed h).reads_append (fun name hname => absurd hname (hp name)) hbreaks hreads

/-- A text breaks off what is before it when its first part and what follows both do: the first part
may be empty. -/
theorem Breaks.append (h : Breaks text) (hrest : Breaks rest) : Breaks (text ++ rest) := by
  cases text with
  | nil => exact hrest
  | cons c text => simpa using h

/-- The text of operands after an opcode. -/
def operandsText : List Operand → List Char
  | [] => []
  | first :: others =>
    ' ' :: (first.render.toList ++ others.flatMap fun o => ',' :: ' ' :: o.render.toList)

/-- The text of an instruction. -/
def instText : InstDef String → List Char
  | .op opcode operands none => opcode.toList ++ operandsText operands
  | .op opcode operands (some name) =>
    opcode.toList ++ (operandsText operands ++ ' ' :: ("->".toList ++ ' ' :: name.toList))
  | .branch none onTrue onFalse =>
    "br".toList ++ ' ' :: (onTrue.toList ++ ',' :: ' ' :: onFalse.toList)
  | .branch (some o) onTrue onFalse =>
    "br".toList ++ ' ' ::
      (o.render.toList ++ ',' :: ' ' :: (onTrue.toList ++ ',' :: ' ' :: onFalse.toList))
  | .jump target => "jmp".toList ++ ' ' :: target.toList
  | .ret none => "ret".toList
  | .ret (some o) => "ret".toList ++ ' ' :: o.render.toList

theorem toList_renderOperands (operands : List Operand) :
    (renderOperands operands).toList = operandsText operands := by
  cases operands with
  | nil => rfl
  | cons first others =>
    simp [renderOperands, operandsText, String.toList_join, List.flatMap_map]

/-- The characters of a printed instruction are the text of the instruction with its targets
printed. -/
theorem toList_render {τ : Type} (target : τ → String) (inst : InstDef τ) :
    (inst.render target).toList = instText (inst.mapTargets target) := by
  cases inst with
  | op opcode operands result =>
    cases result <;>
      simp [InstDef.render, renderResult, InstDef.mapTargets, instText, toList_renderOperands]
  | branch cond onTrue onFalse =>
    cases cond <;> simp [InstDef.render, renderCond, InstDef.mapTargets, instText]
  | jump target => simp [InstDef.render, InstDef.mapTargets, instText]
  | ret value => cases value <;> simp [InstDef.render, InstDef.mapTargets, instText]

theorem breaks_operandsText (operands : List Operand) : Breaks (operandsText operands) := by
  cases operands with
  | nil => exact breaks_nil
  | cons first others => exact breaks_cons.mpr (.inl rfl)

/-- Operands after an opcode are read as their tokens. The tail has a comma before each operand and
the head a blank, so the induction is on the tail. -/
theorem reads_operandsText {operands : List Operand}
    (h : ∀ o ∈ operands, WellNamedOperand o) (hrest : Breaks rest) :
    Reads (operandsText operands) (operandTokens operands) rest := by
  -- the operands after the first one, each with its comma
  have hmore (others : List Operand) (hothers : ∀ o ∈ others, WellNamedOperand o) :
      Breaks (others.flatMap fun o => ',' :: ' ' :: o.render.toList) ∧
        Reads (others.flatMap fun o => ',' :: ' ' :: o.render.toList)
          (others.flatMap fun o => [.comma, operandToken o]) rest := by
    induction others with
    | nil => exact ⟨breaks_nil, reads_nil rest⟩
    | cons o others ih =>
      obtain ⟨ho, hothers⟩ := List.forall_mem_cons.mp hothers
      obtain ⟨hbreaks, hreads⟩ := ih hothers
      exact ⟨breaks_cons.mpr (.inr rfl), (ho.isLexeme.reads_append (prefers_operandToken o)
        (hbreaks.append hrest) hreads).after_comma⟩
  cases operands with
  | nil => exact reads_nil rest
  | cons first others =>
    obtain ⟨hfirst, hothers⟩ := List.forall_mem_cons.mp h
    obtain ⟨hbreaks, hreads⟩ := hmore others hothers
    exact (hfirst.isLexeme.reads_append (prefers_operandToken first) (hbreaks.append hrest)
      hreads).spaced

theorem breaks_blank (text : List Char) : Breaks (' ' :: text) := breaks_cons.mpr (.inl rfl)

theorem breaks_comma (text : List Char) : Breaks (',' :: text) := breaks_cons.mpr (.inr rfl)

/-- Two targets are read with the comma between them. -/
theorem reads_targets {onTrue onFalse : String} (htrue : IsFreeWord onTrue)
    (hfalse : IsFreeWord onFalse) (hrest : Breaks rest) :
    Reads (onTrue.toList ++ ',' :: ' ' :: onFalse.toList) [.ident onTrue, .comma, .ident onFalse]
      rest :=
  htrue.isLexeme.reads_append htrue.prefers (breaks_comma _)
    (hfalse.isLexeme.reads hfalse.prefers hrest).after_comma

/-- An instruction is read as its tokens. -/
theorem reads_instText {inst : InstDef String} (h : WellNamedInst inst) (hrest : Breaks rest) :
    Reads (instText inst) (instTokens inst) rest := by
  have hoperand {o : Operand} (ho : WellNamedOperand o) :
      Reads o.render.toList [operandToken o] rest :=
    ho.isLexeme.reads (prefers_operandToken o) hrest
  fun_cases instTokens inst with
  | case1 opcode operands =>
    obtain ⟨hopcode, hoperands, -⟩ := h
    exact hopcode.isLexeme.reads_append hopcode.prefers
      ((breaks_operandsText operands).append hrest) (reads_operandsText hoperands hrest)
  | case2 opcode operands name =>
    obtain ⟨hopcode, hoperands, hname⟩ := h
    have hresult : Reads (' ' :: ("->".toList ++ ' ' :: name.toList)) [.arrow, .value name] rest :=
      Reads.spaced (reads_fixed_append (by decide) nofun (breaks_blank _)
        ((hname name rfl).isLexeme_value.reads (prefers_operandToken (.value name)) hrest).spaced)
    refine hopcode.isLexeme.reads_append hopcode.prefers ?_
      ((reads_operandsText hoperands (breaks_blank _)).append hresult)
    rw [List.append_assoc]
    exact (breaks_operandsText operands).append (breaks_blank _)
  | case3 onTrue onFalse =>
    obtain ⟨-, htrue, hfalse⟩ := h
    exact reads_fixed_append (by decide) nofun (breaks_blank _)
      (reads_targets htrue hfalse hrest).spaced
  | case4 o onTrue onFalse =>
    obtain ⟨hcond, htrue, hfalse⟩ := h
    exact reads_fixed_append (by decide) nofun (breaks_blank _)
      ((hcond o rfl).isLexeme.reads_append (prefers_operandToken o) (breaks_comma _)
        (reads_targets htrue hfalse hrest).after_comma).spaced
  | case5 target =>
    have htarget : IsFreeWord target := h
    exact reads_fixed_append (by decide) nofun (breaks_blank _)
      (htarget.isLexeme.reads htarget.prefers hrest).spaced
  | case6 => exact (IsLexeme.fixed (by decide)).reads nofun hrest
  | case7 o =>
    exact reads_fixed_append (by decide) nofun (breaks_blank _) (hoperand (h o rfl)).spaced

/-- An instruction fills one line. -/
theorem ne_newline_of_mem_instText {inst : InstDef String} (h : WellNamedInst inst) :
    ∀ c ∈ instText inst, c ≠ '\n' := by
  have hmark {mark : String} (hmark : mark.toList.all (· != '\n') = true) :
      ∀ c ∈ mark.toList, c ≠ '\n' := by simpa using hmark
  have hword {name : String} (hname : IsFreeWord name) : ∀ c ∈ name.toList, c ≠ '\n' :=
    hname.isLexeme.spelling.1
  have hoperand {o : Operand} (ho : WellNamedOperand o) : ∀ c ∈ o.render.toList, c ≠ '\n' :=
    ho.isLexeme.spelling.1
  have hoperands {os : List Operand} (hos : ∀ o ∈ os, WellNamedOperand o) :
      ∀ c ∈ operandsText os, c ≠ '\n' := by
    cases os with
    | nil => exact nofun
    | cons first others =>
      obtain ⟨hfirst, hothers⟩ := List.forall_mem_cons.mp hos
      simp only [operandsText, List.forall_mem_cons, List.forall_mem_append,
        List.forall_mem_flatMap]
      exact ⟨by decide, hoperand hfirst,
        fun o ho => ⟨by decide, by decide, hoperand (hothers o ho)⟩⟩
  fun_cases instText inst <;> try simp only [List.forall_mem_append, List.forall_mem_cons]
  case case1 opcode operands => exact ⟨hword h.1, hoperands h.2.1⟩
  case case2 opcode operands name =>
    exact ⟨hword h.1, hoperands h.2.1, by decide, hmark (by decide), by decide,
      (h.2.2 name rfl).isLexeme_value.spelling.1⟩
  case case3 onTrue onFalse =>
    exact ⟨hmark (by decide), by decide, hword h.2.1, by decide, by decide, hword h.2.2⟩
  case case4 o onTrue onFalse =>
    exact ⟨hmark (by decide), by decide, hoperand (h.1 o rfl), by decide, by decide, hword h.2.1,
      by decide, by decide, hword h.2.2⟩
  case case5 target => exact ⟨hmark (by decide), by decide, hword h⟩
  case case6 => exact hmark (by decide)
  case case7 o => exact ⟨hmark (by decide), by decide, hoperand (h o rfl)⟩

/-! ## Blocks, functions and listings -/

/-- The line of an instruction. -/
def instLine (inst : InstDef String) : List Char :=
  [' ', ' ', ' ', ' '] ++ (instText inst ++ ['\n'])

/-- The text of a block. -/
def blockText (block : PlainBlock) : List Char :=
  (block.1.toList ++ [':']) ++ '\n' :: block.2.flatMap instLine

/-- The text of a function. -/
def funcText (func : PlainFunc) : List Char :=
  "func".toList ++ ' ' :: (func.1.toList ++
    ' ' :: '\x7b' :: '\n' :: (func.2.flatMap blockText ++ ['\x7d', '\n']))

/-- In the middle of a line nothing is indented. -/
theorem indentFrom_false_append (h : ∀ c ∈ text, c ≠ '\n') (rest : List Char) :
    indentFrom false (text ++ rest) = text ++ indentFrom false rest := by
  induction text with
  | nil => rfl
  | cons c text ih =>
    obtain ⟨hc, htext⟩ := List.forall_mem_cons.mp h
    simp [indentFrom, hc, ih htext]

/-- A line that is not empty is moved by four blanks. -/
theorem indentFrom_true_line (hne : text ≠ []) (h : ∀ c ∈ text, c ≠ '\n') :
    indentFrom true (text ++ ['\n']) = [' ', ' ', ' ', ' '] ++ (text ++ ['\n']) := by
  cases text with
  | nil => exact absurd rfl hne
  | cons c text =>
    obtain ⟨hc, htext⟩ := List.forall_mem_cons.mp h
    simp [indentFrom, hc, indentFrom_false_append htext]

/-- An instruction has a text, so its line is indented. -/
theorem instText_ne_nil {inst : InstDef String} (h : WellNamedInst inst) : instText inst ≠ [] := by
  fun_cases instText inst
  case case1 | case2 =>
    simp [h.1.isLexeme.ne_nil]
  all_goals simp

/-- The characters of a printed block: a label and the indented lines of its instructions. -/
theorem toList_render_block {block : BlockDef} (h : WellNamedBlock block.plain) :
    block.render.toList = blockText block.plain := by
  -- each instruction is one line that is not empty, so indenting it adds four blanks
  have hline : ∀ inst ∈ block.insts,
      (indent (inst.val.render Spanned.val ++ "\n")).toList = instLine (plainInst inst) := by
    intro inst hinst
    have hinst := h.2 (plainInst inst) (List.mem_map_of_mem hinst)
    rw [indent, String.toList_ofList, String.toList_append, toList_render]
    exact indentFrom_true_line (instText_ne_nil hinst) (ne_newline_of_mem_instText hinst)
  simp [BlockDef.render, blockText, BlockDef.plain, String.toList_join, List.flatMap_map,
    List.flatMap_congr hline]

theorem toList_render_func {func : FuncDef} (h : ∀ block ∈ func.plain.2, WellNamedBlock block) :
    func.render.toList = funcText func.plain := by
  have hblock : ∀ block ∈ func.blocks, block.render.toList = blockText block.plain :=
    fun block hmem => toList_render_block (h _ (List.mem_map_of_mem hmem))
  simp [FuncDef.render, funcText, FuncDef.plain, String.toList_join, List.flatMap_map,
    List.flatMap_congr hblock]

/-- Pieces that are read in front of any text are read in a row. -/
theorem reads_flatMap {α : Type} {piece : α → List Char} {tokens : α → List Token} {all : List α}
    (h : ∀ a ∈ all, ∀ rest, Reads (piece a) (tokens a) rest) (rest : List Char) :
    Reads (all.flatMap piece) (all.flatMap tokens) rest := by
  induction all with
  | nil => exact reads_nil rest
  | cons a all ih =>
    obtain ⟨ha, hall⟩ := List.forall_mem_cons.mp h
    exact (ha _).append (ih hall)

theorem reads_newline (rest : List Char) : Reads ['\n'] [] rest :=
  reads_blanks (List.forall_mem_singleton.mpr rfl) rest

/-- The line of an instruction is read as its tokens. -/
theorem reads_instLine {inst : InstDef String} (h : WellNamedInst inst) (rest : List Char) :
    Reads (instLine inst) (instTokens inst) rest := by
  have htext := (reads_instText h (breaks_cons.mpr (.inl rfl))).append (reads_newline rest)
  rw [List.append_nil] at htext
  exact (reads_blanks (List.all_eq_true.mp (by decide)) _).append htext

/-- A block is read as its tokens. -/
theorem reads_blockText {block : PlainBlock} (h : WellNamedBlock block) (rest : List Char) :
    Reads (blockText block) (blockTokens block) rest := by
  have hlabel := IsLexeme.label h.1
  rw [String.ofList_toList] at hlabel
  refine hlabel.reads_append nofun (breaks_cons.mpr (.inl rfl)) ?_
  exact (reads_newline _).append
    (reads_flatMap (fun inst hinst => reads_instLine (h.2 inst hinst)) rest)

/-- A function is read whatever its blocks are read as. -/
theorem reads_func {name : String} (hname : IsSigned '@' name)
    (hbody : ∀ rest, Reads text tokens rest) (rest : List Char) :
    Reads ("func".toList ++ ' ' :: (name.toList ++
        ' ' :: '\x7b' :: '\n' :: (text ++ ['\x7d', '\n'])))
      (.func :: .symbol name :: .opening :: (tokens ++ [.closing])) rest := by
  have hbody := (reads_opening _).append ((reads_newline _).append
    ((hbody (['\x7d', '\n'] ++ rest)).append ((reads_closing _).append (reads_newline rest))))
  refine reads_fixed_append (by decide) nofun (breaks_blank _) (Reads.spaced ?_)
  exact hname.isLexeme_symbol.reads_append nofun (breaks_blank _) hbody.spaced

theorem reads_funcText {func : PlainFunc} (hname : IsSigned '@' func.1)
    (hblocks : ∀ block ∈ func.2, WellNamedBlock block) (rest : List Char) :
    Reads (funcText func) (funcTokens func) rest :=
  reads_func hname (reads_flatMap fun block hblock => reads_blockText (hblocks block hblock)) rest

/-- A printed listing is read as the tokens of the listing. -/
theorem reads_render {listing : Tree} (h : listing.WellNamed) (rest : List Char) :
    Reads listing.render.toList (listing.plain.flatMap funcTokens) rest := by
  have hfunc : ∀ func ∈ listing.functions, ∀ after,
      Reads func.val.render.toList (funcTokens func.val.plain) after := by
    intro func hmem after
    obtain ⟨hname, hblocks⟩ := h func.val.plain (List.mem_map_of_mem hmem)
    rw [toList_render_func hblocks]
    exact reads_funcText hname hblocks after
  -- an empty line stands between functions, and only there
  unfold Tree.render Tree.plain
  cases hfunctions : listing.functions with
  | nil => exact reads_nil rest
  | cons first others =>
    obtain ⟨hfirst, hothers⟩ := List.forall_mem_cons.mp (hfunctions ▸ hfunc)
    have hmore : Reads (others.flatMap fun func => '\n' :: func.val.render.toList)
        (others.flatMap fun func => funcTokens func.val.plain) rest :=
      reads_flatMap (fun func hmem after => (reads_newline _).append (hothers func hmem after)) rest
    simpa [String.toList_join, List.flatMap_map] using (hfirst _).append hmore

/-- A text that is read as tokens of a listing is parsed to it. -/
theorem exists_parseTree_of_reads {text : String} {listing : List PlainFunc}
    (h : Reads text.toList tokens []) (hfits : LiteralsFit tokens)
    (hderives : Derives tokens listing) :
    ∃ tree, parseTree text = .ok tree ∧ tree.plain = listing := by
  obtain ⟨spanned, rfl, hlex⟩ := h 0
  -- nothing follows the text, so its tokens are all there is
  have hscan : Scans 0 text.toList spanned .complete := by
    rw [scans_iff]
    simpa [lexFrom] using hlex
  exact (exists_parseTree_eq_ok_iff hscan).mpr ⟨rfl, hfits, hderives⟩

/-- **Printed listings are read back**, whatever spans they have. -/
theorem exists_parseTree_render {listing : Tree} (h : listing.WellNamed) :
    ∃ tree, parseTree listing.render = .ok tree ∧ tree.plain = listing.plain :=
  exists_parseTree_of_reads (reads_render h []) (literalsFit_funcTokens listing.plain)
    (derives_funcTokens listing.plain)

end Rejoin.Listing
