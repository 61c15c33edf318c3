import Rejoin.Listing.Parser

/-!
# The grammar of listings

What a listing says, spans aside, is a row of `PlainFunc`. The grammar relates rows of tokens to it,
one predicate for each kind of phrase: `Token.IsOperand`, `OperandList`, `ResultPart`, `InstPhrase`,
`BlockPhrase`, `FuncPhrase` and, for a whole listing, `Derives`.

The second half is about a listing of which a part has been read. `RestOfListing`, `RestOfFunc` and
`RestOfBlock` say which tokens complete it, and to which listing. Each of them is opened up by the
first of the remaining tokens, which is what a parser needs to know.
-/

namespace Rejoin

namespace Listing

namespace InstDef

variable {τ σ : Type}

/-- Replace the targets of an instruction. -/
def mapTargets (f : τ → σ) : InstDef τ → InstDef σ
  | op opcode operands result => op opcode operands result
  | branch cond onTrue onFalse => branch cond (f onTrue) (f onFalse)
  | jump target => jump (f target)
  | ret value => ret value

/-- Whether the instruction ends its block. -/
def isTerminator : InstDef τ → Bool
  | op .. => false
  | branch .. | jump _ | ret _ => true

/-- The targets of the instruction, in reading order. -/
def targets : InstDef τ → List τ
  | op .. | ret _ => []
  | branch _ onTrue onFalse => [onTrue, onFalse]
  | jump target => [target]

end InstDef

/-! ## Listings without spans -/

/-- A block without spans: its label and its instructions. -/
abbrev PlainBlock := String × List (InstDef String)

/-- A function without spans: its name and its blocks. -/
abbrev PlainFunc := String × List PlainBlock

/-- An instruction without spans. -/
def plainInst (inst : Spanned LabelInst) : InstDef String :=
  inst.val.mapTargets Spanned.val

/-- What a block says, spans aside. -/
def BlockDef.plain (block : BlockDef) : PlainBlock :=
  (block.label.val, block.insts.map plainInst)

/-- What a function says, spans aside. -/
def FuncDef.plain (func : FuncDef) : PlainFunc :=
  (func.name.val, func.blocks.map BlockDef.plain)

/-- What a listing says, spans aside. -/
def Tree.plain (listing : Tree) : List PlainFunc :=
  listing.functions.map fun func => func.val.plain

/-! ## Phrases -/

/-- The token is an operand. The value of a literal is taken modulo the 64-bit range. -/
inductive Token.IsOperand : Token → Operand → Prop
  | value (name : String) : IsOperand (.value name) (.value name)
  | int (n : Int) : IsOperand (.int n) (.int (Int64.ofInt n))
  | symbol (name : String) : IsOperand (.symbol name) (.symbol name)

/-- Operands separated by commas. A comma may stand after the last one. -/
inductive OperandList : List Token → List Operand → Prop
  | nil : OperandList [] []
  | last {token : Token} {operand : Operand} :
      token.IsOperand operand → OperandList [token] [operand]
  | cons {token : Token} {operand : Operand} {tokens : List Token} {operands : List Operand} :
      token.IsOperand operand → OperandList tokens operands →
      OperandList (token :: .comma :: tokens) (operand :: operands)

/-- An arrow and the value that is defined, or nothing. -/
inductive ResultPart : List Token → Option String → Prop
  | none : ResultPart [] none
  | some (name : String) : ResultPart [.arrow, .value name] (some name)

/-- An instruction. -/
inductive InstPhrase : List Token → InstDef String → Prop
  | branch (onTrue onFalse : String) :
      InstPhrase [.br, .ident onTrue, .comma, .ident onFalse] (.branch none onTrue onFalse)
  | branchOn {token : Token} {cond : Operand} (onTrue onFalse : String) : token.IsOperand cond →
      InstPhrase [.br, token, .comma, .ident onTrue, .comma, .ident onFalse]
        (.branch (some cond) onTrue onFalse)
  | jump (target : String) : InstPhrase [.jmp, .ident target] (.jump target)
  | ret : InstPhrase [.ret] (.ret none)
  | retValue {token : Token} {value : Operand} : token.IsOperand value →
      InstPhrase [.ret, token] (.ret (some value))
  | op {tokens after : List Token} {operands : List Operand} {result : Option String}
      (opcode : String) : OperandList tokens operands → ResultPart after result →
      InstPhrase (.ident opcode :: (tokens ++ after)) (.op opcode operands result)

/-- Phrases of one kind, one after the other. -/
inductive Phrases {α : Type} (phrase : List Token → α → Prop) : List Token → List α → Prop
  | nil : Phrases phrase [] []
  | cons {tokens rest : List Token} {first : α} {others : List α} : phrase tokens first →
      Phrases phrase rest others → Phrases phrase (tokens ++ rest) (first :: others)

/-- A label and the instructions of its block. -/
inductive BlockPhrase : List Token → PlainBlock → Prop
  | intro {tokens : List Token} {insts : List (InstDef String)} (label : String) :
      Phrases InstPhrase tokens insts → BlockPhrase (.label label :: tokens) (label, insts)

/-- A function: its name, and its blocks in braces. -/
inductive FuncPhrase : List Token → PlainFunc → Prop
  | intro {tokens : List Token} {blocks : List PlainBlock} (name : String) :
      Phrases BlockPhrase tokens blocks →
      FuncPhrase (.func :: .symbol name :: .opening :: (tokens ++ [.closing])) (name, blocks)

/-- A listing is a row of functions. -/
def Derives (tokens : List Token) (listing : List PlainFunc) : Prop :=
  Phrases FuncPhrase tokens listing

/-- The tokens that are operands, as the parser tells them apart. -/
theorem Token.isOperand_iff {token : Token} {operand : Operand} :
    token.IsOperand operand ↔ token.operand? = some operand := by
  constructor
  · rintro ⟨⟩ <;> rfl
  · intro h
    cases token <;> cases h <;> constructor

/-- No phrase is empty, so a row of phrases that has a token has a first phrase. -/
theorem phrases_cons_iff {α : Type} {phrase : List Token → α → Prop}
    (hne : ∀ a, ¬phrase [] a) {token : Token} {tokens : List Token} {all : List α} :
    Phrases phrase (token :: tokens) all ↔ ∃ inner rest first others, tokens = inner ++ rest ∧
      phrase (token :: inner) first ∧ Phrases phrase rest others ∧ all = first :: others := by
  constructor
  · intro h
    -- the index is made a variable, so that the row can be taken apart
    generalize htokens : token :: tokens = row at h
    cases h with
    | nil => cases htokens
    | @cons inner rest first others hfirst hothers =>
      cases inner with
      | nil => exact absurd hfirst (hne first)
      | cons t inner =>
        obtain ⟨rfl, rfl⟩ := List.cons.inj htokens
        exact ⟨inner, rest, first, others, rfl, hfirst, hothers, rfl⟩
  · rintro ⟨inner, rest, first, others, rfl, hfirst, hothers, rfl⟩
    exact .cons hfirst hothers

/-- Where no phrase is empty, no tokens are no phrases. -/
theorem phrases_nil_iff {α : Type} {phrase : List Token → α → Prop}
    (hne : ∀ a, ¬phrase [] a) {all : List α} : Phrases phrase [] all ↔ all = [] := by
  constructor
  · intro h
    generalize htokens : ([] : List Token) = row at h
    cases h with
    | nil => rfl
    | @cons inner rest first others hfirst _ =>
      obtain ⟨rfl, -⟩ := List.append_eq_nil_iff.mp htokens.symm
      exact absurd hfirst (hne first)
  · rintro rfl
    exact .nil

theorem not_instPhrase_nil (inst : InstDef String) : ¬InstPhrase [] inst := nofun

theorem not_blockPhrase_nil (block : PlainBlock) : ¬BlockPhrase [] block := nofun

theorem not_funcPhrase_nil (func : PlainFunc) : ¬FuncPhrase [] func := nofun

/-! ## Listings of which a part has been read -/

/-- A function of which some blocks have been read. -/
structure FuncPart where
  /-- The functions before it. -/
  done : List PlainFunc
  /-- Its name. -/
  name : String
  /-- The blocks read so far. -/
  blocks : List PlainBlock

/-- A block of which some instructions have been read. -/
structure BlockPart where
  /-- The function it is in. -/
  func : FuncPart
  /-- Its label. -/
  label : String
  /-- The instructions read so far. -/
  insts : List (InstDef String)

/-- All functions, if the function ends here. -/
def FuncPart.close (func : FuncPart) : List PlainFunc :=
  func.done ++ [(func.name, func.blocks)]

/-- The function, if the block ends here. -/
def BlockPart.close (block : BlockPart) : FuncPart :=
  { block.func with blocks := block.func.blocks ++ [(block.label, block.insts)] }

/-- The block with further instructions. -/
def BlockPart.add (block : BlockPart) (insts : List (InstDef String)) : BlockPart :=
  { block with insts := block.insts ++ insts }

@[simp]
theorem BlockPart.add_nil (block : BlockPart) : block.add [] = block := by
  simp [add]

@[simp]
theorem BlockPart.add_add (block : BlockPart) (first second : List (InstDef String)) :
    (block.add first).add second = block.add (first ++ second) := by
  simp [add]

/-- The tokens complete a listing of which these functions have been read. -/
def RestOfListing (done : List PlainFunc) (tokens : List Token) (listing : List PlainFunc) :
    Prop :=
  ∃ functions, Phrases FuncPhrase tokens functions ∧ listing = done ++ functions

/-- The tokens complete a listing from inside a function. -/
def RestOfFunc (func : FuncPart) (tokens : List Token) (listing : List PlainFunc) : Prop :=
  ∃ inner rest blocks, tokens = inner ++ .closing :: rest ∧ Phrases BlockPhrase inner blocks ∧
    RestOfListing { func with blocks := func.blocks ++ blocks }.close rest listing

/-- The tokens complete a listing from inside a block. -/
def RestOfBlock (block : BlockPart) (tokens : List Token) (listing : List PlainFunc) : Prop :=
  ∃ inner rest insts, tokens = inner ++ rest ∧ Phrases InstPhrase inner insts ∧
    RestOfFunc (block.add insts).close rest listing

variable {done listing : List PlainFunc} {func : FuncPart} {block : BlockPart} {token : Token}
  {tokens : List Token}

/-- Between functions a listing may end. -/
theorem restOfListing_nil_iff : RestOfListing done [] listing ↔ listing = done := by
  simp [RestOfListing, phrases_nil_iff not_funcPhrase_nil]

/-- Between functions only a new function may begin. -/
theorem restOfListing_cons_iff :
    RestOfListing done (token :: tokens) listing ↔ token = .func ∧
      ∃ name rest, tokens = .symbol name :: .opening :: rest ∧
        RestOfFunc ⟨done, name, []⟩ rest listing := by
  unfold RestOfListing RestOfFunc
  simp only [phrases_cons_iff not_funcPhrase_nil]
  constructor
  · rintro ⟨_, ⟨_, rest, _, others, rfl, ⟨name, hblocks⟩, hothers, rfl⟩, rfl⟩
    refine ⟨rfl, name, _, rfl, _, rest, _, by simp, hblocks, others, hothers, ?_⟩
    simp [FuncPart.close]
  · rintro ⟨rfl, name, _, rfl, inner, rest, blocks, rfl, hblocks, others, hothers, rfl⟩
    refine ⟨(name, blocks) :: others, ⟨_, rest, _, others, ?_, .intro name hblocks, hothers, rfl⟩,
      ?_⟩
    · simp
    · simp [FuncPart.close]

/-- A function that is open needs its closing brace. -/
theorem not_restOfFunc_nil : ¬RestOfFunc func [] listing := by
  rintro ⟨inner, rest, blocks, h, -⟩
  simp at h

/-- Between blocks a function is closed, or a label opens a block. -/
theorem restOfFunc_cons_iff :
    RestOfFunc func (token :: tokens) listing ↔
      token = .closing ∧ RestOfListing func.close tokens listing ∨
        ∃ label, token = .label label ∧ RestOfBlock ⟨func, label, []⟩ tokens listing := by
  constructor
  · rintro ⟨inner, rest, blocks, htokens, hblocks, hrest⟩
    cases inner with
    | nil =>
      -- no block is left, and the first token is the closing brace
      obtain ⟨rfl, rfl⟩ := List.cons.inj htokens
      obtain rfl := (phrases_nil_iff not_blockPhrase_nil).mp hblocks
      exact .inl ⟨rfl, by simpa using hrest⟩
    | cons t inner =>
      -- the tokens of the first block that is left become the rest of an open block
      obtain ⟨rfl, rfl⟩ := List.cons.inj htokens
      obtain ⟨ofBlock, others, _, more, rfl, ⟨label, hinsts⟩, hothers, rfl⟩ :=
        (phrases_cons_iff not_blockPhrase_nil).mp hblocks
      refine .inr ⟨label, rfl, ofBlock, _, _, List.append_assoc _ _ _, hinsts, others, rest, more,
        rfl, hothers, ?_⟩
      simpa [BlockPart.close, BlockPart.add] using hrest
  · rintro (⟨rfl, hrest⟩ | ⟨label, rfl, ofBlock, _, insts, rfl, hinsts, others, rest, more, rfl,
      hothers, hrest⟩)
    · exact ⟨[], tokens, [], rfl, .nil, by simpa using hrest⟩
    · refine ⟨(.label label :: ofBlock) ++ others, rest, (label, insts) :: more, by simp,
        .cons (.intro label hinsts) hothers, ?_⟩
      simpa [BlockPart.close, BlockPart.add] using hrest

/-- A block that is open needs the closing brace of its function. -/
theorem not_restOfBlock_nil : ¬RestOfBlock block [] listing := by
  rintro ⟨inner, rest, insts, h, -, hrest⟩
  obtain ⟨rfl, rfl⟩ := List.append_eq_nil_iff.mp h.symm
  exact not_restOfFunc_nil hrest

/-- In a block an instruction follows, or the block is over. -/
theorem restOfBlock_cons_iff :
    RestOfBlock block (token :: tokens) listing ↔
      (∃ inner rest inst, tokens = inner ++ rest ∧ InstPhrase (token :: inner) inst ∧
        RestOfBlock (block.add [inst]) rest listing) ∨
      RestOfFunc block.close (token :: tokens) listing := by
  constructor
  · rintro ⟨inner, rest, insts, htokens, hinsts, hrest⟩
    cases inner with
    | nil =>
      -- the block ends here, and the token belongs to what follows in the function
      obtain rfl := (phrases_nil_iff not_instPhrase_nil).mp hinsts
      rw [List.nil_append] at htokens
      exact .inr (by simpa [htokens] using hrest)
    | cons t inner =>
      obtain ⟨rfl, rfl⟩ := List.cons.inj htokens
      obtain ⟨ofInst, others, inst, more, rfl, hinst, hothers, rfl⟩ :=
        (phrases_cons_iff not_instPhrase_nil).mp hinsts
      refine .inl ⟨ofInst, _, inst, List.append_assoc _ _ _, hinst, others, rest, more, rfl,
        hothers, ?_⟩
      simpa using hrest
  · rintro (⟨inner, _, inst, rfl, hinst, others, rest, more, rfl, hothers, hrest⟩ | hrest)
    · refine ⟨(token :: inner) ++ others, rest, inst :: more, by simp, .cons hinst hothers, ?_⟩
      simpa using hrest
    · exact ⟨[], _, [], rfl, .nil, by simpa using hrest⟩

/-- The tokens that an instruction can start with. -/
theorem InstPhrase.starts {inst : InstDef String} (h : InstPhrase (token :: tokens) inst) :
    token.terminal ∈ [Terminal.br, .jmp, .ret, .ident] := by
  cases h <;> simp [Token.terminal]

/-- A block goes on with an instruction, or its function goes on with a block or ends. -/
theorem RestOfBlock.starts (h : RestOfBlock block (token :: tokens) listing) :
    token.terminal ∈ [Terminal.br, .jmp, .ret, .ident] ++ [.closing, .label] := by
  rcases restOfBlock_cons_iff.mp h with ⟨inner, rest, inst, -, hinst, -⟩ | hrest
  · exact List.mem_append_left _ hinst.starts
  · rcases restOfFunc_cons_iff.mp hrest with ⟨rfl, -⟩ | ⟨label, rfl, -⟩ <;> simp [Token.terminal]

end Listing

end Rejoin
