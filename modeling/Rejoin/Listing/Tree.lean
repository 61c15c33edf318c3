import Rejoin.Machine.Inst
import Rejoin.Text.Span

/-!
# Listings

The tree of a machine listing: functions made of labelled blocks, whose branches and jumps name
blocks by label. Names, targets, instructions and functions carry the bytes they were read from.
-/

namespace Rejoin.Listing

/-- An instruction of a listing, whose targets are of type `τ`. The words that end a block are
fixed, so only an ordinary instruction has an opcode, operands and a result. -/
inductive InstDef (τ : Type) where
  /-- An ordinary instruction, which may define a value. -/
  | op (opcode : String) (operands : List Operand) (result : Option String)
  /-- A two-way branch. -/
  | branch (cond : Option Operand) (onTrue onFalse : τ)
  /-- An unconditional jump. -/
  | jump (target : τ)
  /-- A return from the function. -/
  | ret (value : Option Operand)
deriving DecidableEq, Repr, Inhabited

/-- An instruction whose targets are labels. -/
abbrev LabelInst := InstDef (Spanned String)

/-- A labelled block. -/
structure BlockDef where
  /-- The label, without its colon. -/
  label : Spanned String
  /-- The instructions in order. -/
  insts : List (Spanned LabelInst)
deriving DecidableEq, Repr, Inhabited

/-- A function. -/
structure FuncDef where
  /-- Name of the function. -/
  name : Spanned String
  /-- The blocks in order. -/
  blocks : List BlockDef
deriving DecidableEq, Repr, Inhabited

/-- A whole listing. -/
structure Tree where
  /-- The functions in order. -/
  functions : List (Spanned FuncDef)
deriving DecidableEq, Repr, Inhabited

end Rejoin.Listing
