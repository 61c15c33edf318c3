import Rejoin.Flow.Transfer
import Rejoin.Text.Numeral

/-!
# Operands and instructions

An instruction has an opcode, operands, possibly a result, and a kind: it is ordinary or one of the
three ways to end a block.
-/

namespace Rejoin

/-- Number of an instruction in its function. -/
abbrev InstId := Nat

/-- What an instruction reads. -/
inductive Operand where
  /-- A value that some instruction defines. -/
  | value (name : String)
  /-- An immediate integer. -/
  | int (n : Int64)
  /-- A global symbol. -/
  | symbol (name : String)
deriving DecidableEq, Repr, Inhabited

namespace Operand

/-- The name of the value, if the operand is one. -/
def value? : Operand → Option String
  | value name => some name
  | int _ | symbol _ => none

/-- The text of an operand. Names are written as they are. -/
def render : Operand → String
  | value name => name
  | int n => signedDecimal n.toInt
  | symbol name => name

end Operand

/-- What an instruction does to control flow, where targets are of type `τ`. -/
inductive InstKind (τ : Type) where
  /-- It goes on with the next instruction. -/
  | op
  /-- A two-way branch. A branch without a condition reads the result of the compare before it. -/
  | branch (cond : Option Operand) (onTrue onFalse : τ)
  /-- An unconditional jump. -/
  | jump (target : τ)
  /-- A return from the function. -/
  | ret (value : Option Operand)
deriving DecidableEq, Repr, Inhabited

/-- What a kind of instruction reads beside the operands. -/
def InstKind.reads {τ : Type} : InstKind τ → List Operand
  | op | jump _ => []
  | branch cond _ _ => cond.toList
  | ret value => value.toList

/-- A machine instruction whose targets are of type `τ`. An instruction of any kind has an opcode
and may have operands and a result, although those that end a block are usually made without. -/
structure Inst (τ : Type) where
  /-- The mnemonic. -/
  opcode : String
  /-- The operands. -/
  operands : List Operand
  /-- The value the instruction defines. -/
  result : Option String
  /-- What it does to control flow. -/
  kind : InstKind τ
deriving DecidableEq, Repr, Inhabited

/-- Operands after an opcode: a blank, then the operands separated by commas. -/
def renderOperands : List Operand → String
  | [] => ""
  | first :: rest => " " ++ first.render ++ String.join (rest.map fun o => ", " ++ o.render)

/-- The text of a definition after the operands. -/
def renderResult : Option String → String
  | none => ""
  | some name => " -> " ++ name

/-- The text of a condition before the targets of a branch. -/
def renderCond : Option Operand → String
  | none => ""
  | some o => o.render ++ ", "

namespace Inst

variable {τ : Type}

/-- An ordinary instruction, which may define a value. -/
def op (opcode : String) (operands : List Operand) (result : Option String) : Inst τ :=
  ⟨opcode, operands, result, .op⟩

/-- A two-way branch. -/
def branch (cond : Option Operand) (onTrue onFalse : τ) : Inst τ :=
  ⟨"br", [], none, .branch cond onTrue onFalse⟩

/-- An unconditional jump. -/
def jump (target : τ) : Inst τ :=
  ⟨"jmp", [], none, .jump target⟩

/-- A return from the function. -/
def ret (value : Option Operand) : Inst τ :=
  ⟨"ret", [], none, .ret value⟩

/-- Whether the instruction ends its block. -/
def isTerminator (inst : Inst τ) : Bool :=
  match inst.kind with
  | .op => false
  | .branch .. | .jump _ | .ret _ => true

/-- Whether the instruction is a conditional branch. -/
def isBranch (inst : Inst τ) : Bool :=
  match inst.kind with
  | .branch .. => true
  | .op | .jump _ | .ret _ => false

/-- Everything the instruction reads, in reading order. -/
def reads (inst : Inst τ) : List Operand :=
  inst.operands ++ inst.kind.reads

/-- The names of the values the instruction reads. -/
def uses (inst : Inst τ) : List String :=
  inst.reads.filterMap Operand.value?

/-- The text of an instruction, given the text of its targets. What ends a block is written without
operands and result. -/
def render (target : τ → String) (inst : Inst τ) : String :=
  match inst.kind with
  | .op => inst.opcode ++ renderOperands inst.operands ++ renderResult inst.result
  | .branch cond onTrue onFalse =>
    inst.opcode ++ " " ++ renderCond cond ++ target onTrue ++ ", " ++ target onFalse
  | .jump t => inst.opcode ++ " " ++ target t
  | .ret none => inst.opcode
  | .ret (some o) => inst.opcode ++ " " ++ o.render

end Inst

end Rejoin
