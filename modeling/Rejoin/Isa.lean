import Rejoin.Machine.Inst

/-!
# Instruction sets

What the analysis has to know about an instruction set: which opcodes are annotations rather than
code, and whether a compare is fused with the branch after it.
-/

namespace Rejoin

/-- An instruction set. -/
inductive Isa where
  /-- Compares set flags that the branch after them reads. -/
  | x86
  /-- Branches read their condition explicitly. -/
  | generic
deriving DecidableEq, Repr, Inhabited

namespace Isa

/-- The name of an instruction set. -/
def name : Isa → String
  | x86 => "x86"
  | generic => "generic"

/-- The instruction set with a name. -/
def ofName? (name : String) : Option Isa :=
  if name = "x86" then some x86
  else if name = "generic" then some generic
  else none

/-- The complaint about a name that no instruction set has. -/
def unknownMessage (name : String) : String :=
  "unknown instruction set `" ++ name ++ "`"

/-- Whether an opcode starts with the given letters. -/
def startsWith (letters opcode : String) : Bool :=
  letters.toList.isPrefixOf opcode.toList

/-- Whether an opcode is an annotation and not code. -/
def isMeta : Isa → String → Bool
  | x86, opcode =>
    startsWith "dbg." opcode || startsWith "cfi." opcode || opcode == "kill" ||
      opcode == "implicit_def"
  | generic, opcode => startsWith "dbg." opcode

/-- Whether a compare is fused with the branch after it. -/
def fuses : Isa → Bool
  | x86 => true
  | generic => false

/-- Whether an instruction is code: it ends a block, or its opcode is no annotation. -/
def isSubstantive {τ : Type} (isa : Isa) (inst : Inst τ) : Bool :=
  inst.isTerminator || !isa.isMeta inst.opcode

end Isa

end Rejoin
