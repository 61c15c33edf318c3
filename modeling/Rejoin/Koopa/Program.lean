import Rejoin.Koopa.Token

/-!
# Koopa programs

Functions whose operands are values rather than names, with blocks in layout order. The result of an
instruction is identified by the place of the instruction in the layout of its function.
-/

namespace Rejoin.Koopa

/-- What an instruction reads. -/
inductive Value where
  /-- The result of the instruction at a place in the layout. -/
  | inst (place : Nat)
  /-- A parameter of the function. -/
  | param (place : Nat)
  /-- A parameter of a block. -/
  | blockParam (block place : Nat)
  /-- A global variable, with its name if it has one. -/
  | global (name : Option String)
  /-- An integer. -/
  | int (n : Int64)
  /-- A value left open, or zeros. -/
  | blank
  /-- The elements of an array. -/
  | aggregate
deriving DecidableEq, Repr, Inhabited

/-- What an instruction does. Targets are places of blocks in the layout. -/
inductive Operation where
  /-- Apply an operator. -/
  | binary (op : BinaryOp) (lhs rhs : Value)
  /-- Reserve memory. -/
  | alloc
  /-- Read memory. -/
  | load (src : Value)
  /-- Write memory. -/
  | store (value dest : Value)
  /-- Move a pointer. -/
  | getPtr (src index : Value)
  /-- Point to an element of an array. -/
  | getElemPtr (src index : Value)
  /-- Call a function. -/
  | call (callee : String) (args : List Value)
  /-- Branch two ways, with arguments for the parameters of each target. -/
  | branch (cond : Value) (onTrue : Nat) (trueArgs : List Value) (onFalse : Nat)
      (falseArgs : List Value)
  /-- Jump, with arguments for the parameters of the target. -/
  | jump (target : Nat) (args : List Value)
  /-- Return. -/
  | ret (value : Option Value)
deriving DecidableEq, Repr, Inhabited

/-- Whether an instruction has a result, and what it is called. -/
inductive Result where
  /-- There is none. -/
  | unit
  /-- There is one without a name. -/
  | unnamed
  /-- There is one with a name. -/
  | named (name : String)
deriving DecidableEq, Repr, Inhabited

/-- An instruction. -/
structure Inst where
  /-- Its result. -/
  result : Result
  /-- What it does. -/
  operation : Operation
deriving DecidableEq, Repr, Inhabited

/-- A block. -/
structure Block where
  /-- Its name, if it has one. -/
  name : Option String
  /-- The names of its parameters. -/
  params : List (Option String)
  /-- Its instructions. -/
  insts : List Inst
deriving DecidableEq, Repr, Inhabited

/-- A function. One that is only declared has no blocks. -/
structure Function where
  /-- Its name. -/
  name : String
  /-- The names of its parameters. -/
  params : List (Option String)
  /-- Its blocks in layout order. -/
  blocks : List Block
deriving DecidableEq, Repr, Inhabited

/-- A program. -/
structure Program where
  /-- The functions in order. -/
  functions : List Function
deriving DecidableEq, Repr, Inhabited

end Rejoin.Koopa
