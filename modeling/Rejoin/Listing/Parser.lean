import Rejoin.Listing.Lexer
import Rejoin.Listing.Tree
import Rejoin.Diagnostic

/-!
# The parser of listings

A listing is read token by token. The state of the parser holds the tree read so far and says what
may follow; `State.step` is the only place that decides this, and the expectations shown in an error
are the classes of tokens on which it does not fail.

An integer literal outside the 64-bit range is a fault of its own. It is noticed once the token
after the literal shows that the operand is complete.
-/

namespace Rejoin.Listing

/-- Why a text is not a listing. -/
inductive ParseError where
  /-- No token starts at this byte. -/
  | invalidToken (position : Nat)
  /-- The text ends, after this byte, where one of the classes was expected. -/
  | unexpectedEnd (position : Nat) (expected : List Terminal)
  /-- A token stands where one of the classes was expected. -/
  | unexpectedToken (span : Span) (expected : List Terminal)
  /-- An integer literal does not fit 64 bits. -/
  | literalOutOfRange
deriving DecidableEq, Repr, Inhabited

/-- The hint that lists what was expected. -/
def expectation (expected : List Terminal) : String :=
  "expect one of: " ++ String.intercalate ", " (expected.map Terminal.describe)

/-- What is shown of a parse error. -/
def ParseError.diagnostic : ParseError → Diagnostic
  | invalidToken position =>
    { message := "invalid token"
      code := "reconv::invalid_token"
      labels := [⟨position, 1, "invalid token"⟩] }
  | unexpectedEnd position expected =>
    { message := "unexpected end of file"
      code := "reconv::unexpected_eof"
      help := some (expectation expected)
      labels := [⟨position, 1, "unexpected end of file"⟩] }
  | unexpectedToken span expected =>
    { message := "unexpected token"
      code := "reconv::unexpected_token"
      help := some (expectation expected)
      labels := [Label.over span "unexpected token"] }
  | literalOutOfRange =>
    { message := "integer literal out of range"
      code := "reconv::invalid_literal" }

/-- A function whose closing brace has not been read. -/
structure OpenFunc where
  /-- The functions before it, the latest first. -/
  done : List (Spanned FuncDef)
  /-- Where the function starts. -/
  start : Nat
  /-- Name of the function. -/
  name : Spanned String
  /-- Its complete blocks, the latest first. -/
  blocks : List BlockDef
deriving DecidableEq, Repr, Inhabited

/-- A block to which instructions may still be added. -/
structure OpenBlock where
  /-- The function it is in. -/
  func : OpenFunc
  /-- Label of the block. -/
  label : Spanned String
  /-- Its complete instructions, the latest first. -/
  insts : List (Spanned LabelInst)
deriving DecidableEq, Repr, Inhabited

/-- End a function at byte `stop`. -/
def OpenFunc.close (func : OpenFunc) (stop : Nat) : List (Spanned FuncDef) :=
  ⟨⟨func.name, func.blocks.reverse⟩, ⟨func.start, stop⟩⟩ :: func.done

/-- End a block. -/
def OpenBlock.close (block : OpenBlock) : OpenFunc :=
  { block.func with blocks := ⟨block.label, block.insts.reverse⟩ :: block.func.blocks }

/-- What stands last in the operand list of an ordinary instruction. -/
inductive ListEnd where
  /-- The opcode: there is no operand yet. -/
  | opcode
  /-- An operand. -/
  | operand
  /-- A comma. -/
  | comma
deriving DecidableEq, Repr, Inhabited

/-- How much of an instruction has been read. -/
inductive Phase where
  /-- Nothing: the block's label or a complete instruction stands last. -/
  | idle
  /-- The opcode and operands, latest first, of an ordinary instruction. -/
  | operation (span : Span) (opcode : String) (operands : List Operand) (listEnd : ListEnd)
  /-- An ordinary instruction up to its arrow. -/
  | arrow (start : Nat) (opcode : String) (operands : List Operand)
  /-- The word `br`. -/
  | branch (start : Nat)
  /-- A branch and its condition. -/
  | cond (start : Nat) (cond : Operand)
  /-- A branch, its condition and a comma. -/
  | condComma (start : Nat) (cond : Operand)
  /-- A branch up to its true target. -/
  | onTrue (start : Nat) (cond : Option Operand) (target : Spanned String)
  /-- A branch up to the comma after its true target. -/
  | onTrueComma (start : Nat) (cond : Option Operand) (target : Spanned String)
  /-- The word `jmp`. -/
  | jump (start : Nat)
  /-- The word `ret`. -/
  | ret (span : Span)
deriving DecidableEq, Repr, Inhabited

/-- The operand a token is. -/
def Token.operand? : Token → Option Operand
  | value name => some (.value name)
  | int n => some (.int (Int64.ofInt n))
  | symbol name => some (.symbol name)
  | _ => none

namespace Phase

/-- Go on with an instruction: to a later phase, or to its end. -/
def advance? (phase : Phase) (token : Spanned Token) : Option (Phase ⊕ Spanned LabelInst) :=
  let stop := token.span.stop
  match phase, token.val with
  | operation span opcode operands .operand, .comma =>
    some (.inl (operation ⟨span.start, stop⟩ opcode operands .comma))
  | operation span opcode operands _, .arrow =>
    some (.inl (arrow span.start opcode operands))
  | operation _ _ _ .operand, _ => none
  | operation span opcode operands _, t =>
    t.operand?.map fun o => .inl (operation ⟨span.start, stop⟩ opcode (o :: operands) .operand)
  | arrow start opcode operands, .value name =>
    some (.inr ⟨.op opcode operands.reverse (some name), ⟨start, stop⟩⟩)
  | branch start, .ident name => some (.inl (onTrue start none ⟨name, token.span⟩))
  | branch start, t => t.operand?.map fun o => .inl (cond start o)
  | cond start o, .comma => some (.inl (condComma start o))
  | condComma start o, .ident name => some (.inl (onTrue start (some o) ⟨name, token.span⟩))
  | onTrue start o target, .comma => some (.inl (onTrueComma start o target))
  | onTrueComma start o target, .ident name =>
    some (.inr ⟨.branch o target ⟨name, token.span⟩, ⟨start, stop⟩⟩)
  | jump start, .ident name => some (.inr ⟨.jump ⟨name, token.span⟩, ⟨start, stop⟩⟩)
  | ret span, t => t.operand?.map fun o => .inr ⟨.ret (some o), ⟨span.start, stop⟩⟩
  | _, _ => none

/-- The instruction a phase amounts to when the next token, at byte `next`, is not part of it:
nothing, or one instruction. Fails where an instruction is incomplete. An opcode that stands alone
extends to the token after it. -/
def complete? (next : Nat) : Phase → Option (List (Spanned LabelInst))
  | idle => some []
  | operation span opcode operands .opcode =>
    some [⟨.op opcode operands.reverse none, ⟨span.start, next⟩⟩]
  | operation span opcode operands _ => some [⟨.op opcode operands.reverse none, span⟩]
  | ret span => some [⟨.ret none, span⟩]
  | _ => none

end Phase

/-- Where the parser stands. -/
inductive State where
  /-- Outside any function, after these, the latest first. -/
  | outside (done : List (Spanned FuncDef))
  /-- After the word `func`. -/
  | header (done : List (Spanned FuncDef)) (start : Nat)
  /-- After the name of a function. -/
  | named (done : List (Spanned FuncDef)) (start : Nat) (name : Spanned String)
  /-- Inside a function, before its first label. -/
  | body (func : OpenFunc)
  /-- Inside a block. -/
  | block (block : OpenBlock) (phase : Phase)
deriving DecidableEq, Repr, Inhabited

/-- Read a token that starts an instruction or a block, or ends the function. -/
def OpenBlock.start? (block : OpenBlock) (token : Spanned Token) : Option State :=
  match token.val with
  | .label name =>
    some (.block ⟨block.close, ⟨name, ⟨token.span.start, token.span.stop - 1⟩⟩, []⟩ .idle)
  | .closing => some (.outside (block.close.close token.span.stop))
  | .br => some (.block block (.branch token.span.start))
  | .jmp => some (.block block (.jump token.span.start))
  | .ret => some (.block block (.ret token.span))
  | .ident name => some (.block block (.operation token.span name [] .opcode))
  | _ => none

namespace State

/-- Read one token. Fails if no listing goes on with it. -/
def step (state : State) (token : Spanned Token) : Option State :=
  match state with
  | outside done =>
    match token.val with
    | .func => some (header done token.span.start)
    | _ => none
  | header done start =>
    match token.val with
    | .symbol name => some (named done start ⟨name, token.span⟩)
    | _ => none
  | named done start name =>
    match token.val with
    | .opening => some (body ⟨done, start, name, []⟩)
    | _ => none
  | body func =>
    match token.val with
    | .label name =>
      some (block ⟨func, ⟨name, ⟨token.span.start, token.span.stop - 1⟩⟩, []⟩ .idle)
    | .closing => some (outside (func.close token.span.stop))
    | _ => none
  | block b phase =>
    match phase.advance? token with
    | some (.inl later) => some (block b later)
    | some (.inr inst) => some (block { b with insts := inst :: b.insts } .idle)
    | none =>
      (phase.complete? token.span.start).bind fun insts =>
        OpenBlock.start? { b with insts := insts ++ b.insts } token

/-- The classes of tokens that may follow. -/
def expected (state : State) : List Terminal :=
  Terminal.all.filter fun terminal => (state.step ⟨terminal.sample, ⟨0, 0⟩⟩).isSome

/-- The error of a text that stops, `last` being the end of its last token. -/
def endError (state : State) (last : Nat) : Ending → ParseError
  | .complete => .unexpectedEnd last state.expected
  | .invalid position => .invalidToken position

/-- The result for a text that stops, `last` being the end of its last token. -/
def finish (state : State) (last : Nat) (ending : Ending) : Except ParseError Tree :=
  match state, ending with
  | outside done, .complete => .ok ⟨done.reverse⟩
  | _, _ => .error (state.endError last ending)

/-- The error of a text in which a literal out of range stands last and these tokens follow. -/
def literalError (state : State) (last : Nat) (ending : Ending) :
    List (Spanned Token) → ParseError
  | [] => state.endError last ending
  | token :: _ =>
    if token.val.terminal.closesOperand then .literalOutOfRange
    else .unexpectedToken token.span state.expected

/-- Read the remaining tokens, `last` being the end of the one before them. -/
def run (state : State) (last : Nat) (ending : Ending) :
    List (Spanned Token) → Except ParseError Tree
  | [] => state.finish last ending
  | token :: rest =>
    match state.step token with
    | none => .error (.unexpectedToken token.span state.expected)
    | some next =>
      match token.val with
      | .int n =>
        if (int64? n).isSome then next.run token.span.stop ending rest
        else .error (next.literalError token.span.stop ending rest)
      | _ => next.run token.span.stop ending rest

end State

/-- Read a listing. -/
def parseTree (text : String) : Except ParseError Tree :=
  let lexed := lex text.toList
  (State.outside []).run 0 lexed.ending lexed.tokens

end Rejoin.Listing
