import Rejoin.Proofs.Listing.Grammar
import Rejoin.Proofs.Listing.Scanning

/-!
# The parser accepts the grammar

To every state of the parser belong the rows of tokens that complete its listing, and the listing
they complete it to (`State.Completes`). One step of the parser takes the first token off such a row
(`State.completes_cons_iff`), so a run of the parser ends in the listing its tokens derive.
-/

namespace Rejoin.Listing

/-! ## Instructions of which a part has been read -/

/-- The tokens complete an operand list that ends in `listEnd`, and the result part after it. -/
def ListEnd.Finishes : ListEnd → List Token → List Operand → Option String → Prop
  | .opcode, tokens, operands, result | .comma, tokens, operands, result =>
    ∃ row after, tokens = row ++ after ∧ OperandList row operands ∧ ResultPart after result
  | .operand, tokens, operands, result =>
    operands = [] ∧ ResultPart tokens result ∨
      ∃ row after, tokens = .comma :: (row ++ after) ∧ OperandList row operands ∧
        ResultPart after result

/-- The tokens complete the instruction of which `phase` has been read. -/
def Phase.Finishes : Phase → List Token → List (InstDef String) → Prop
  | .idle, tokens, insts => tokens = [] ∧ insts = []
  | .operation _ opcode operands listEnd, tokens, insts =>
    ∃ result more, listEnd.Finishes tokens more result ∧
      insts = [.op opcode (operands.reverse ++ more) result]
  | .arrow _ opcode operands, tokens, insts =>
    ∃ name, tokens = [.value name] ∧ insts = [.op opcode operands.reverse (some name)]
  | .branch _, tokens, insts => ∃ inst, InstPhrase (.br :: tokens) inst ∧ insts = [inst]
  | .cond _ operand, tokens, insts =>
    ∃ onTrue onFalse, tokens = [.comma, .ident onTrue, .comma, .ident onFalse] ∧
      insts = [.branch (some operand) onTrue onFalse]
  | .condComma _ operand, tokens, insts =>
    ∃ onTrue onFalse, tokens = [.ident onTrue, .comma, .ident onFalse] ∧
      insts = [.branch (some operand) onTrue onFalse]
  | .onTrue _ operand target, tokens, insts =>
    ∃ onFalse, tokens = [.comma, .ident onFalse] ∧ insts = [.branch operand target.val onFalse]
  | .onTrueComma _ operand target, tokens, insts =>
    ∃ onFalse, tokens = [.ident onFalse] ∧ insts = [.branch operand target.val onFalse]
  | .jump _, tokens, insts => ∃ target, tokens = [.ident target] ∧ insts = [.jump target]
  | .ret _, tokens, insts => ∃ inst, InstPhrase (.ret :: tokens) inst ∧ insts = [inst]

theorem resultPart_nil_iff {result : Option String} : ResultPart [] result ↔ result = none := by
  constructor
  · rintro ⟨⟩
    rfl
  · rintro rfl
    exact .none

/-- A result is an arrow and the name of a value. -/
theorem resultPart_cons_iff {token : Token} {tokens : List Token} {result : Option String} :
    ResultPart (token :: tokens) result ↔
      token = .arrow ∧ ∃ name, tokens = [.value name] ∧ result = some name := by
  constructor
  · intro h
    cases h with
    | some name => exact ⟨rfl, name, rfl, rfl⟩
  · rintro ⟨rfl, name, rfl, rfl⟩
    exact .some name

namespace ListEnd

variable {listEnd : ListEnd} {token : Token} {tokens : List Token} {operands : List Operand}
  {result : Option String}

/-- A list of operands may end wherever the instruction does. -/
theorem finishes_nil_iff : listEnd.Finishes [] operands result ↔ operands = [] ∧ result = none := by
  cases listEnd with
  | operand => simp [Finishes, resultPart_nil_iff]
  | opcode | comma =>
    simp only [Finishes, List.nil_eq_append_iff]
    constructor
    · rintro ⟨_, _, ⟨rfl, rfl⟩, ⟨⟩, ⟨⟩⟩
      exact ⟨rfl, rfl⟩
    · rintro ⟨rfl, rfl⟩
      exact ⟨[], [], ⟨rfl, rfl⟩, .nil, .none⟩

/-- Behind an operand comes a comma or the result. -/
theorem finishes_operand_cons_iff :
    operand.Finishes (token :: tokens) operands result ↔
      token = .comma ∧ comma.Finishes tokens operands result ∨
        token = .arrow ∧ operands = [] ∧ ∃ name, tokens = [.value name] ∧ result = some name := by
  simp only [Finishes, resultPart_cons_iff]
  grind

/-- Behind a comma comes an operand, or the result: the comma may be the last one. -/
theorem finishes_comma_cons_iff :
    comma.Finishes (token :: tokens) operands result ↔
      (∃ first others, token.operand? = some first ∧ operands = first :: others ∧
        operand.Finishes tokens others result) ∨
        token = .arrow ∧ operands = [] ∧ ∃ name, tokens = [.value name] ∧ result = some name := by
  constructor
  · rintro ⟨row, after, htokens, hrow, hafter⟩
    cases hrow with
    | nil =>
      -- a comma may stand last, so the list may end here
      rw [List.nil_append] at htokens
      obtain ⟨rfl, hname⟩ := resultPart_cons_iff.mp (htokens ▸ hafter)
      exact .inr ⟨rfl, rfl, hname⟩
    | @last t first hfirst =>
      obtain ⟨rfl, rfl⟩ := List.cons.inj htokens
      exact .inl ⟨first, [], Token.isOperand_iff.mp hfirst, rfl, .inl ⟨rfl, hafter⟩⟩
    | @cons t first more others hfirst hmore =>
      obtain ⟨rfl, rfl⟩ := List.cons.inj htokens
      exact .inl ⟨first, others, Token.isOperand_iff.mp hfirst, rfl,
        .inr ⟨more, after, rfl, hmore, hafter⟩⟩
  · rintro (⟨first, others, hfirst, rfl, ⟨rfl, hafter⟩ | ⟨row, after, rfl, hrow, hafter⟩⟩ |
      ⟨rfl, rfl, name, rfl, rfl⟩)
    · exact ⟨[token], tokens, rfl, .last (Token.isOperand_iff.mpr hfirst), hafter⟩
    · exact ⟨token :: .comma :: row, after, rfl, .cons (Token.isOperand_iff.mpr hfirst) hrow,
        hafter⟩
    · exact ⟨[], _, rfl, .nil, .some name⟩

/-- Before the first operand the same may stand as after a comma. -/
theorem finishes_opcode_iff :
    opcode.Finishes tokens operands result ↔ comma.Finishes tokens operands result := Iff.rfl

end ListEnd

/-- The two ways to write a branch, with and without a condition. -/
theorem instPhrase_br_iff {tokens : List Token} {inst : InstDef String} :
    InstPhrase (.br :: tokens) inst ↔
      (∃ onTrue onFalse, tokens = [.ident onTrue, .comma, .ident onFalse] ∧
        inst = .branch none onTrue onFalse) ∨
      ∃ token cond onTrue onFalse, token.operand? = some cond ∧
        tokens = [token, .comma, .ident onTrue, .comma, .ident onFalse] ∧
        inst = .branch (some cond) onTrue onFalse := by
  simp only [← Token.isOperand_iff]
  constructor
  · intro h
    cases h with
    | branch onTrue onFalse => exact .inl ⟨onTrue, onFalse, rfl, rfl⟩
    | branchOn onTrue onFalse hcond => exact .inr ⟨_, _, onTrue, onFalse, hcond, rfl, rfl⟩
  · rintro (⟨onTrue, onFalse, rfl, rfl⟩ | ⟨token, cond, onTrue, onFalse, hcond, rfl, rfl⟩)
    · exact .branch onTrue onFalse
    · exact .branchOn onTrue onFalse hcond

/-- A return is written with a value or without. -/
theorem instPhrase_ret_iff {tokens : List Token} {inst : InstDef String} :
    InstPhrase (.ret :: tokens) inst ↔ tokens = [] ∧ inst = .ret none ∨
      ∃ token value, token.operand? = some value ∧ tokens = [token] ∧ inst = .ret (some value) := by
  simp only [← Token.isOperand_iff]
  constructor
  · intro h
    cases h with
    | ret => exact .inl ⟨rfl, rfl⟩
    | retValue hvalue => exact .inr ⟨_, _, hvalue, rfl, rfl⟩
  · rintro (⟨rfl, rfl⟩ | ⟨token, value, hvalue, rfl, rfl⟩)
    · exact .ret
    · exact .retValue hvalue

theorem instPhrase_jmp_iff {tokens : List Token} {inst : InstDef String} :
    InstPhrase (.jmp :: tokens) inst ↔
      ∃ target, tokens = [.ident target] ∧ inst = .jump target := by
  constructor
  · intro h
    cases h with
    | jump target => exact ⟨target, rfl, rfl⟩
  · rintro ⟨target, rfl, rfl⟩
    exact .jump target

/-- Any other word starts an ordinary instruction; its operands and its result follow. -/
theorem instPhrase_ident_iff {opcode : String} {tokens : List Token} {inst : InstDef String} :
    InstPhrase (.ident opcode :: tokens) inst ↔
      ∃ result operands, ListEnd.opcode.Finishes tokens operands result ∧
        inst = .op opcode operands result := by
  constructor
  · intro h
    cases h with
    | op _ hrow hafter => exact ⟨_, _, ⟨_, _, rfl, hrow, hafter⟩, rfl⟩
  · rintro ⟨result, operands, ⟨row, after, rfl, hrow, hafter⟩, rfl⟩
    exact .op opcode hrow hafter

namespace Phase

variable {phase : Phase} {tokens : List Token} {insts : List (InstDef String)}

/-- The tokens complete what `advance?` makes of an instruction. -/
def FinishesAfter : Option (Phase ⊕ Spanned LabelInst) → List Token → List (InstDef String) → Prop
  | none, _, _ => False
  | some (.inl later), tokens, insts => later.Finishes tokens insts
  | some (.inr inst), tokens, insts => tokens = [] ∧ insts = [plainInst inst]

/-- What remains of an instruction after one more token. -/
theorem finishes_cons_iff (token : Spanned Token) :
    phase.Finishes (token.val :: tokens) insts ↔
      FinishesAfter (phase.advance? token) tokens insts := by
  obtain ⟨token, span⟩ := token
  cases phase with
  | operation start opcode operands listEnd =>
    cases listEnd with
    | operand =>
      cases token <;>
        simp [Finishes, FinishesAfter, advance?, ListEnd.finishes_operand_cons_iff]
    | opcode | comma =>
      cases token <;> simp [Finishes, FinishesAfter, advance?, ListEnd.finishes_opcode_iff,
        ListEnd.finishes_comma_cons_iff, Token.operand?]
  | branch start =>
    cases token <;> simp [Finishes, FinishesAfter, advance?, instPhrase_br_iff, Token.operand?]
  | ret start =>
    cases token <;> simp [Finishes, FinishesAfter, advance?, instPhrase_ret_iff, Token.operand?,
      plainInst, InstDef.mapTargets]
  -- in the other phases the grammar leaves one row of tokens only
  | _ => cases token <;> simp [Finishes, FinishesAfter, advance?, plainInst, InstDef.mapTargets]

/-- An instruction that needs no more tokens is what the phase amounts to. -/
theorem finishes_nil_iff (next : Nat) :
    phase.Finishes [] insts ↔
      ∃ done, phase.complete? next = some done ∧ insts = done.map plainInst := by
  cases phase with
  | operation span opcode operands listEnd =>
    cases listEnd <;>
      simp [Finishes, complete?, ListEnd.finishes_nil_iff, plainInst, InstDef.mapTargets]
  | branch start => simp [Finishes, complete?, instPhrase_br_iff]
  | ret span => simp [Finishes, complete?, instPhrase_ret_iff, plainInst, InstDef.mapTargets]
  | _ => simp [Finishes, complete?]

/-- A phase amounts to one instruction at most. -/
theorem reverse_of_complete? {next : Nat} {done : List (Spanned LabelInst)}
    (hdone : phase.complete? next = some done) : done.reverse = done := by
  revert hdone
  fun_cases complete? next phase <;> rintro ⟨⟩ <;> rfl

/-- A phase that goes on with a token does not end before it: no block goes on with that token. -/
theorem advance?_eq_none_of_restOfBlock {token : Spanned Token} {next : Nat}
    {done : List (Spanned LabelInst)} {block : BlockPart} {listing : List PlainFunc}
    (hdone : phase.complete? next = some done)
    (hrest : RestOfBlock block (token.val :: tokens) listing) : phase.advance? token = none := by
  have hstarts := hrest.starts
  obtain ⟨token, span⟩ := token
  cases phase with
  | operation start opcode operands listEnd =>
    cases listEnd <;> cases token <;> simp [Token.terminal] at hstarts <;> rfl
  | ret start => cases token <;> simp [Token.terminal] at hstarts <;> rfl
  | idle => rfl
  | _ => cases hdone

end Phase

/-- The phases in which an operand may stand last. -/
def Phase.MayEndInOperand : Phase → Prop
  | .idle | .cond .. | .operation _ _ _ .operand => True
  | _ => False

/-! ## States -/

/-- The functions read so far. -/
def plainDone (done : List (Spanned FuncDef)) : List PlainFunc :=
  done.reverse.map fun func => func.val.plain

/-- The function as far as it has been read. -/
def OpenFunc.part (func : OpenFunc) : FuncPart :=
  ⟨plainDone func.done, func.name.val, func.blocks.reverse.map BlockDef.plain⟩

/-- The block as far as it has been read. -/
def OpenBlock.part (block : OpenBlock) : BlockPart :=
  ⟨block.func.part, block.label.val, block.insts.reverse.map plainInst⟩

/-- Closing a function adds it to the functions that are done. -/
@[simp]
theorem OpenFunc.plainDone_close (func : OpenFunc) (stop : Nat) :
    plainDone (func.close stop) = func.part.close := by
  simp [plainDone, close, part, FuncPart.close, FuncDef.plain]

/-- Closing a block adds it to the blocks of its function. -/
@[simp]
theorem OpenBlock.part_close (block : OpenBlock) : block.close.part = block.part.close := by
  simp [close, part, OpenFunc.part, BlockPart.close, BlockDef.plain]

/-- The latest instructions stand first in an open block. -/
theorem OpenBlock.part_append (block : OpenBlock) (insts : List (Spanned LabelInst)) :
    OpenBlock.part { block with insts := insts ++ block.insts } =
      block.part.add (insts.reverse.map plainInst) := by
  simp [part, BlockPart.add]

@[simp]
theorem OpenBlock.part_mk_nil (func : OpenFunc) (label : Spanned String) :
    OpenBlock.part ⟨func, label, []⟩ = ⟨func.part, label.val, []⟩ := rfl

/-- The tokens complete the listing of which `state` has been read. -/
def State.Completes : State → List Token → List PlainFunc → Prop
  | .outside done, tokens, listing => RestOfListing (plainDone done) tokens listing
  | .header done _, tokens, listing =>
    ∃ name rest, tokens = .symbol name :: .opening :: rest ∧
      RestOfFunc ⟨plainDone done, name, []⟩ rest listing
  | .named done _ name, tokens, listing =>
    ∃ rest, tokens = .opening :: rest ∧ RestOfFunc ⟨plainDone done, name.val, []⟩ rest listing
  | .body func, tokens, listing => RestOfFunc func.part tokens listing
  | .block b phase, tokens, listing =>
    ∃ inner rest insts, tokens = inner ++ rest ∧ phase.Finishes inner insts ∧
      RestOfBlock (b.part.add insts) rest listing

section

variable {tokens : List Token} {listing : List PlainFunc}

@[simp]
theorem State.completes_outside {done : List (Spanned FuncDef)} :
    (State.outside done).Completes tokens listing ↔
      RestOfListing (plainDone done) tokens listing := Iff.rfl

/-- Behind `func`, the name and the opening brace follow. -/
@[simp]
theorem State.completes_header {done : List (Spanned FuncDef)} {start : Nat} :
    (State.header done start).Completes tokens listing ↔
      ∃ name rest, tokens = .symbol name :: .opening :: rest ∧
        RestOfFunc ⟨plainDone done, name, []⟩ rest listing := Iff.rfl

/-- Behind the name of a function, the opening brace follows. -/
@[simp]
theorem State.completes_named {done : List (Spanned FuncDef)} {start : Nat}
    {name : Spanned String} :
    (State.named done start name).Completes tokens listing ↔
      ∃ rest, tokens = .opening :: rest ∧
        RestOfFunc ⟨plainDone done, name.val, []⟩ rest listing := Iff.rfl

@[simp]
theorem State.completes_body {func : OpenFunc} :
    (State.body func).Completes tokens listing ↔ RestOfFunc func.part tokens listing := Iff.rfl

/-- Between instructions, a block is completed by what the grammar says. -/
@[simp]
theorem State.completes_idle {block : OpenBlock} :
    (State.block block .idle).Completes tokens listing ↔
      RestOfBlock block.part tokens listing := by
  simp [Completes, Phase.Finishes]

end

/-- After the first token of an instruction, the block is completed by the rest of it and by what
follows the instruction. -/
theorem State.completes_started (block : OpenBlock) (phase : Phase) (token : Token)
    (tokens : List Token) (listing : List PlainFunc)
    (hphase : ∀ inner insts,
      phase.Finishes inner insts ↔ ∃ inst, InstPhrase (token :: inner) inst ∧ insts = [inst]) :
    (State.block block phase).Completes tokens listing ↔
      ∃ inner rest inst, tokens = inner ++ rest ∧ InstPhrase (token :: inner) inst ∧
        RestOfBlock (block.part.add [inst]) rest listing := by
  unfold Completes
  simp only [hphase]
  grind

/-- What remains of a block, between two instructions, after one more token. -/
theorem OpenBlock.restOfBlock_cons_iff (block : OpenBlock) (token : Spanned Token)
    {tokens : List Token} {listing : List PlainFunc} :
    RestOfBlock block.part (token.val :: tokens) listing ↔
      ∃ next, block.start? token = some next ∧ next.Completes tokens listing := by
  obtain ⟨token, span⟩ := token
  have hstarted := fun phase => State.completes_started block phase token tokens listing
  have hinst := @InstPhrase.starts token
  rw [Listing.restOfBlock_cons_iff, restOfFunc_cons_iff]
  cases token with
  | br => simpa [start?] using (hstarted (.branch span.start) fun _ _ => Iff.rfl).symm
  | ret => simpa [start?] using (hstarted (.ret span) fun _ _ => Iff.rfl).symm
  | jmp =>
    simpa [start?] using (hstarted (.jump span.start) fun inner insts => by
      simp [Phase.Finishes, instPhrase_jmp_iff]).symm
  | ident name =>
    simpa [start?] using (hstarted (.operation span name [] .opcode) fun inner insts => by
      simp only [Phase.Finishes, instPhrase_ident_iff, List.reverse_nil, List.nil_append]
      grind).symm
  | _ =>
    -- no instruction starts with the token, so the block ends before it or nothing fits
    simp [Token.terminal] at hinst
    simp [start?, hinst]

/-- What remains of a block, inside an instruction or between two, after one more token. -/
theorem State.completes_block_cons_iff (b : OpenBlock) (phase : Phase) (token : Spanned Token)
    {tokens : List Token} {listing : List PlainFunc} :
    (State.block b phase).Completes (token.val :: tokens) listing ↔
      ∃ next, (State.block b phase).step token = some next ∧ next.Completes tokens listing := by
  constructor
  · rintro ⟨inner, rest, insts, htokens, hinner, hrest⟩
    cases inner with
    | nil =>
      -- the instruction, if any, has ended before the token, which therefore starts something
      obtain ⟨done, hdone, rfl⟩ := (Phase.finishes_nil_iff token.span.start).mp hinner
      rw [List.nil_append] at htokens
      subst htokens
      have hadvance := Phase.advance?_eq_none_of_restOfBlock hdone hrest
      rw [← Phase.reverse_of_complete? hdone, ← OpenBlock.part_append,
        OpenBlock.restOfBlock_cons_iff] at hrest
      simpa [step, hdone, hadvance] using hrest
    | cons t inner =>
      -- the token belongs to the instruction, which goes on or ends with it
      obtain ⟨rfl, rfl⟩ := List.cons.inj htokens
      rw [Phase.finishes_cons_iff token] at hinner
      rcases hadvance : phase.advance? token with _ | later | inst <;> rw [hadvance] at hinner
      · exact hinner.elim
      · exact ⟨.block b later, by simp [step, hadvance], inner, rest, insts, rfl, hinner, hrest⟩
      · obtain ⟨rfl, rfl⟩ := hinner
        refine ⟨.block { b with insts := [inst] ++ b.insts } .idle, by simp [step, hadvance], ?_⟩
        rw [completes_idle, OpenBlock.part_append]
        simpa using hrest
  · rintro ⟨next, hnext, hcompletes⟩
    -- the same three cases, now told apart by what the parser does
    rcases hadvance : phase.advance? token with _ | later | inst <;>
      simp only [step, hadvance, Option.bind_eq_some_iff, Option.some.injEq] at hnext
    · obtain ⟨done, hdone, hstart⟩ := hnext
      refine ⟨[], token.val :: tokens, done.map plainInst, rfl,
        (Phase.finishes_nil_iff token.span.start).mpr ⟨done, hdone, rfl⟩, ?_⟩
      rw [← Phase.reverse_of_complete? hdone, ← OpenBlock.part_append,
        OpenBlock.restOfBlock_cons_iff]
      exact ⟨next, hstart, hcompletes⟩
    · subst hnext
      obtain ⟨inner, rest, insts, rfl, hinner, hrest⟩ := hcompletes
      refine ⟨token.val :: inner, rest, insts, rfl, ?_, hrest⟩
      rwa [Phase.finishes_cons_iff, hadvance]
    · subst hnext
      rw [completes_idle, ← List.singleton_append, OpenBlock.part_append] at hcompletes
      refine ⟨[token.val], tokens, [plainInst inst], rfl, ?_, by simpa using hcompletes⟩
      rw [Phase.finishes_cons_iff, hadvance]
      exact ⟨rfl, rfl⟩

/-- **One step of the parser.** The rows of tokens that complete a state are those that complete the
state after their first token. -/
theorem State.completes_cons_iff (state : State) (token : Spanned Token) {tokens : List Token}
    {listing : List PlainFunc} :
    state.Completes (token.val :: tokens) listing ↔
      ∃ next, state.step token = some next ∧ next.Completes tokens listing := by
  obtain ⟨token, span⟩ := token
  cases state with
  | outside done =>
    rw [completes_outside, restOfListing_cons_iff]
    cases token <;> simp [step]
  | header done start => cases token <;> simp [step]
  | named done start name => cases token <;> simp [step, OpenFunc.part]
  | body func =>
    rw [completes_body, restOfFunc_cons_iff]
    cases token <;> simp [step]
  | block b phase => exact completes_block_cons_iff b phase ⟨token, span⟩

/-- The tokens may end outside of functions only. -/
theorem State.completes_nil_iff {state : State} {listing : List PlainFunc} :
    state.Completes [] listing ↔ ∃ done, state = .outside done ∧ listing = plainDone done := by
  cases state with
  | outside done => simp [restOfListing_nil_iff]
  | block b phase =>
    have hblock : ¬(State.block b phase).Completes [] listing := by
      rintro ⟨inner, rest, insts, htokens, -, hrest⟩
      rw [(List.append_eq_nil_iff.mp htokens.symm).2] at hrest
      exact not_restOfBlock_nil hrest
    simp [hblock]
  | _ => simp [not_restOfFunc_nil]

/-! ## Runs -/

/-- Every integer literal denotes a 64-bit signed integer. -/
def LiteralsFit (tokens : List Token) : Prop :=
  ∀ n, .int n ∈ tokens → -9223372036854775808 ≤ n ∧ n ≤ 9223372036854775807

theorem isSome_int64?_iff {n : Int} :
    (int64? n).isSome ↔ -9223372036854775808 ≤ n ∧ n ≤ 9223372036854775807 := by
  unfold int64?
  split <;> simp_all [Int64.minValue, Int64.maxValue]

/-- Literals fit if the first one does and the others do. -/
theorem literalsFit_cons_iff {token : Token} {tokens : List Token} :
    LiteralsFit (token :: tokens) ↔ LiteralsFit [token] ∧ LiteralsFit tokens := by
  simp only [LiteralsFit, List.mem_cons, List.not_mem_nil, or_false]
  grind

theorem literalsFit_int_iff {n : Int} : LiteralsFit [.int n] ↔ (int64? n).isSome := by
  simp [LiteralsFit, isSome_int64?_iff]

namespace State

variable {state next : State} {last : Nat} {ending : Ending} {token : Spanned Token}
  {tokens : List (Spanned Token)} {listing : List PlainFunc}

/-- A token that cannot follow is the fault that is reported. -/
theorem run_cons_of_step_eq_none (hstep : state.step token = none) :
    state.run last ending (token :: tokens) =
      .error (.unexpectedToken token.span state.expected) := by
  simp [run, hstep]

/-- A token that can follow, and fits, is passed over. -/
theorem run_cons_of_literalsFit (hstep : state.step token = some next)
    (hfits : LiteralsFit [token.val]) :
    state.run last ending (token :: tokens) = next.run token.span.stop ending tokens := by
  simp only [run, hstep]
  split
  · next h => simp [literalsFit_int_iff.mp (h ▸ hfits)]
  · rfl

/-- A literal that can follow but does not fit ends the run. -/
theorem run_cons_of_not_literalsFit (hstep : state.step token = some next)
    (hfits : ¬LiteralsFit [token.val]) :
    state.run last ending (token :: tokens) =
      .error (next.literalError token.span.stop ending tokens) := by
  simp only [run, hstep]
  split
  · next h => simp [mt literalsFit_int_iff.mpr (h ▸ hfits)]
  · next h => exact absurd (fun n hn => absurd (List.mem_singleton.mp hn).symm (h n)) hfits

/-- A text that stops is a listing if it stops outside any function. -/
theorem exists_finish_eq_ok_iff :
    (∃ tree, state.finish last ending = .ok tree ∧ tree.plain = listing) ↔
      ending = .complete ∧ state.Completes [] listing := by
  rw [completes_nil_iff]
  cases state with
  | outside done => cases ending <;> simp [finish, Tree.plain, plainDone, eq_comm]
  | _ => simp [finish]

/-- A run that ends well has read the tokens that complete its state. -/
theorem exists_run_eq_ok_iff :
    (∃ tree, state.run last ending tokens = .ok tree ∧ tree.plain = listing) ↔
      ending = .complete ∧ LiteralsFit (tokens.map Spanned.val) ∧
        state.Completes (tokens.map Spanned.val) listing := by
  -- one token at a time: what it does to the state it does to the rows that complete the state
  induction tokens generalizing state last with
  | nil => simp [run, exists_finish_eq_ok_iff, LiteralsFit]
  | cons token tokens ih =>
    rw [List.map_cons, literalsFit_cons_iff, completes_cons_iff]
    cases hstep : state.step token with
    | none => simp [run_cons_of_step_eq_none hstep]
    | some next =>
      by_cases hfits : LiteralsFit [token.val]
      · simp [run_cons_of_literalsFit hstep hfits, ih, hfits]
      · simp [run_cons_of_not_literalsFit hstep hfits, hfits]

/-- After a literal the parser is inside a block, in a phase in which an operand stands last. -/
theorem exists_phase_of_step_int {n : Int} (hstep : state.step token = some next)
    (htoken : token.val = .int n) :
    ∃ b phase, next = .block b phase ∧ phase.MayEndInOperand := by
  cases state with
  | block b phase =>
    cases phase with
    | operation span opcode operands listEnd =>
      cases listEnd <;>
        simp [step, Phase.advance?, Phase.complete?, OpenBlock.start?, Token.operand?, htoken]
          at hstep <;>
        exact ⟨_, _, hstep.symm, trivial⟩
    | branch start | ret span =>
      simp [step, Phase.advance?, Token.operand?, htoken] at hstep
      exact ⟨_, _, hstep.symm, trivial⟩
    | _ =>
      simp [step, Phase.advance?, Phase.complete?, OpenBlock.start?, htoken] at hstep
  | _ => simp [step, htoken] at hstep

/-- A token that may follow an operand shows that the operand is complete. -/
theorem closesOperand_of_step {b : OpenBlock} {phase : Phase} (hphase : phase.MayEndInOperand)
    (hstep : (State.block b phase).step token = some next) :
    token.val.terminal.closesOperand := by
  obtain ⟨token, span⟩ := token
  cases phase with
  | idle => cases token <;> first | rfl | cases hstep
  | cond start operand => cases token <;> first | rfl | cases hstep
  | operation start opcode operands listEnd =>
    cases listEnd with
    | operand => cases token <;> first | rfl | cases hstep
    | _ => exact hphase.elim
  | _ => exact hphase.elim

/-- A run over tokens that complete its state fails only for a literal out of range. -/
theorem run_eq_literalOutOfRange (hcompletes : state.Completes (tokens.map Spanned.val) listing)
    (hfits : ¬LiteralsFit (tokens.map Spanned.val)) :
    state.run last ending tokens = .error .literalOutOfRange := by
  induction tokens generalizing state last with
  | nil => exact absurd nofun hfits
  | cons token tokens ih =>
    rw [List.map_cons] at hcompletes hfits
    obtain ⟨next, hstep, hnext⟩ := (completes_cons_iff state token).mp hcompletes
    by_cases hfirst : LiteralsFit [token.val]
    · rw [run_cons_of_literalsFit hstep hfirst]
      exact ih hnext fun h => hfits (literalsFit_cons_iff.mpr ⟨hfirst, h⟩)
    · rw [run_cons_of_not_literalsFit hstep hfirst]
      -- the literal is an operand, so the listing cannot end here, and the next token closes it
      have hint : ∃ n, token.val = .int n := by
        simp only [LiteralsFit, List.mem_singleton, not_forall] at hfirst
        obtain ⟨n, hn, -⟩ := hfirst
        exact ⟨n, hn.symm⟩
      obtain ⟨n, hn⟩ := hint
      obtain ⟨b, phase, rfl, hphase⟩ := exists_phase_of_step_int hstep hn
      cases tokens with
      | nil =>
        obtain ⟨done, hdone, -⟩ := completes_nil_iff.mp hnext
        cases hdone
      | cons after tokens =>
        obtain ⟨later, hlater, -⟩ := (completes_cons_iff _ after).mp hnext
        simp [literalError, closesOperand_of_step hphase hlater]

end State

/-! ## Listings -/

/-- A listing is completed from the start exactly by the tokens that derive it. -/
theorem completes_outside_nil_iff {tokens : List Token} {listing : List PlainFunc} :
    (State.outside []).Completes tokens listing ↔ Derives tokens listing := by
  simp [RestOfListing, plainDone, Derives]

/-- The parser runs over the tokens of the text from the first state. -/
theorem parseTree_eq_run {text : String} {tokens : List (Spanned Token)} {ending : Ending}
    (hscan : Scans 0 text.toList tokens ending) :
    parseTree text = (State.outside []).run 0 ending tokens := by
  unfold parseTree lex
  rw [scans_iff.mp hscan]

/-- A listing is read off a text exactly if its tokens derive it. -/
theorem exists_parseTree_eq_ok_iff {text : String} {tokens : List (Spanned Token)}
    {ending : Ending} {listing : List PlainFunc} (hscan : Scans 0 text.toList tokens ending) :
    (∃ tree, parseTree text = .ok tree ∧ tree.plain = listing) ↔
      ending = .complete ∧ LiteralsFit (tokens.map Spanned.val) ∧
        Derives (tokens.map Spanned.val) listing := by
  rw [parseTree_eq_run hscan, State.exists_run_eq_ok_iff, completes_outside_nil_iff]

/-- **The parser accepts its grammar.** It returns a tree exactly for the texts that lex completely
to tokens which the grammar derives, all literals of which fit 64 bits. The tree is then the only
listing the tokens derive. A text that fails for its literals alone is reported as such. -/
theorem parseTree_grammar (text : String) :
    ((∃ tree, parseTree text = .ok tree) ↔
      ∃ tokens, Scans 0 text.toList tokens .complete ∧
        (∃ listing, Derives (tokens.map Spanned.val) listing) ∧
        LiteralsFit (tokens.map Spanned.val)) ∧
    (∀ tree tokens, parseTree text = .ok tree → Scans 0 text.toList tokens .complete →
      ∀ listing, Derives (tokens.map Spanned.val) listing ↔ listing = tree.plain) ∧
    ∀ tokens listing, Scans 0 text.toList tokens .complete →
      Derives (tokens.map Spanned.val) listing → ¬LiteralsFit (tokens.map Spanned.val) →
      parseTree text = .error .literalOutOfRange := by
  refine ⟨⟨?_, ?_⟩, ?_, ?_⟩
  · rintro ⟨tree, htree⟩
    -- every text scans to some tokens, and to no others
    have hscan := scans_lexFrom 0 text.toList
    obtain ⟨hending, hfits, hderives⟩ := (exists_parseTree_eq_ok_iff hscan).mp ⟨tree, htree, rfl⟩
    exact ⟨_, hending ▸ hscan, ⟨tree.plain, hderives⟩, hfits⟩
  · rintro ⟨tokens, hscan, ⟨listing, hderives⟩, hfits⟩
    obtain ⟨tree, htree, -⟩ := (exists_parseTree_eq_ok_iff hscan).mpr ⟨rfl, hfits, hderives⟩
    exact ⟨tree, htree⟩
  · intro tree tokens htree hscan listing
    obtain ⟨-, hfits, hderives⟩ := (exists_parseTree_eq_ok_iff hscan).mp ⟨tree, htree, rfl⟩
    constructor
    · -- a second derivation would be read as well, and the parser gives one tree
      intro hlisting
      obtain ⟨other, hother, rfl⟩ :=
        (exists_parseTree_eq_ok_iff hscan).mpr ⟨rfl, hfits, hlisting⟩
      rw [Except.ok.inj (htree.symm.trans hother)]
    · rintro rfl
      exact hderives
  · intro tokens listing hscan hderives hfits
    rw [parseTree_eq_run hscan]
    exact State.run_eq_literalOutOfRange (completes_outside_nil_iff.mpr hderives) hfits

/-- One more than the greatest 64-bit integer stands in a listing that is fine otherwise. -/
theorem parseTree_literal_above_range :
    parseTree "func @f \x7b a: ret 9223372036854775808 \x7d" = .error .literalOutOfRange := by
  refine (parseTree_grammar _).2.2
    [⟨.func, 0, 4⟩, ⟨.symbol "@f", 5, 7⟩, ⟨.opening, 8, 9⟩, ⟨.label "a", 10, 12⟩,
      ⟨.ret, 13, 16⟩, ⟨.int 9223372036854775808, 17, 36⟩, ⟨.closing, 37, 38⟩]
    [("@f", [("a", [.ret (some (.int (Int64.ofInt 9223372036854775808)))])])] ?_ ?_ ?_
  · exact scans_iff.mpr (by decide +kernel)
  · have hret := InstPhrase.retValue (.int 9223372036854775808)
    have hblock := BlockPhrase.intro "a" (.cons hret .nil)
    exact Phrases.cons (FuncPhrase.intro "@f" (.cons hblock .nil)) .nil
  · intro hfits
    have hn := hfits 9223372036854775808 (by simp)
    omega

end Rejoin.Listing
