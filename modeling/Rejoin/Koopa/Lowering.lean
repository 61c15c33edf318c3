import Rejoin.Diagnostic
import Rejoin.Koopa.Check
import Rejoin.Koopa.Parser
import Rejoin.Machine.Func

/-!
# From Koopa programs to machine programs

Every Koopa instruction becomes one machine instruction, in layout order, so the place of an
instruction is the number it gets. Results without a name get a name of their own, which keeps
definitions and uses together. Arguments of blocks are not carried over.
-/

namespace Rejoin.Koopa

/-- The name of the `n`-th result that has none of its own. -/
def freshName (n : Nat) : String :=
  "%.v" ++ decimal n

/-- Names for results in order, `fresh` being the number of names made up before. -/
def assignNames (fresh : Nat) : List Result → List (Option String)
  | [] => []
  | .unit :: rest => none :: assignNames fresh rest
  | .named name :: rest => some name :: assignNames fresh rest
  | .unnamed :: rest => some (freshName fresh) :: assignNames (fresh + 1) rest

namespace Function

/-- Every instruction in layout order. -/
def insts (f : Function) : List Inst :=
  f.blocks.flatMap Block.insts

/-- What the parameters are called, followed by the results of the instructions in layout order. -/
def results (f : Function) : List Result :=
  (f.params.map fun
    | some name => Result.named name
    | none => Result.unnamed) ++ f.insts.map Inst.result

/-- The names of the parameters, followed by those of the instructions in layout order. -/
def valueNames (f : Function) : List (Option String) :=
  assignNames 0 f.results

/-- The name of a parameter. -/
def paramName? (f : Function) (place : Nat) : Option String :=
  ((f.valueNames.take f.params.length)[place]?).join

/-- The name of the result of an instruction. -/
def instName? (f : Function) (place : Nat) : Option String :=
  (f.valueNames[f.params.length + place]?).join

/-- The name of a parameter of a block. -/
def blockParamName? (f : Function) (block place : Nat) : Option String :=
  ((f.blocks[block]?).bind fun b => b.params[place]?).join

/-- What is read in place of a value that has no name. -/
def noName : String := "%.undef"

/-- The operand that reads a value. -/
def operand (f : Function) : Value → Operand
  | .inst place => .value ((f.instName? place).getD noName)
  | .param place => .value ((f.paramName? place).getD noName)
  | .blockParam block place => .value ((f.blockParamName? block place).getD noName)
  | .global name => .symbol (name.getD "@.global")
  | .int n => .int n
  | .blank => .int 0
  | .aggregate => .value noName

/-- The machine instruction of an instruction whose result has the given name, `number` being the
machine block of each place in the layout. -/
def lowerInst (f : Function) (number : Nat → BlockId) (result : Option String) :
    Operation → Rejoin.Inst BlockId
  | .binary op lhs rhs => .op op.opcode [f.operand lhs, f.operand rhs] result
  | .alloc => .op "alloc" [] result
  | .load src => .op "load" [f.operand src] result
  | .store value dest => .op "store" [f.operand value, f.operand dest] result
  | .getPtr src index => .op "getptr" [f.operand src, f.operand index] result
  | .getElemPtr src index => .op "getelemptr" [f.operand src, f.operand index] result
  | .call callee args => .op "call" (.symbol callee :: args.map f.operand) result
  | .branch cond onTrue _ onFalse _ =>
    .branch (some (f.operand cond)) (number onTrue) (number onFalse)
  | .jump target _ => .jump (number target)
  | .ret value => .ret (value.map f.operand)

/-- The machine instructions of a row of instructions, the first of which is at a place. -/
def lowerInsts (f : Function) (number : Nat → BlockId) (place : Nat) :
    List Inst → List (Rejoin.Inst BlockId)
  | [] => []
  | inst :: rest =>
    f.lowerInst number (f.instName? place) inst.operation :: f.lowerInsts number (place + 1) rest

/-- The label of the block at a place: its name without percent signs in front, or one made from
the place. -/
def blockLabel (place : Nat) (b : Block) : String :=
  match b.name with
  | some name => String.ofList (name.toList.dropWhile (· == '%'))
  | none => "bb" ++ decimal place

/-- Create the machine blocks of a row of blocks, the first of which is at a place. The number that
each place gets is noted in front of `numbers`. -/
def createBlocks (func : Func) (numbers : List (Nat × BlockId)) (place : Nat) :
    List Block → Func × List (Nat × BlockId)
  | [] => (func, numbers)
  | b :: rest =>
    let (id, func) := func.newBlock (blockLabel place b)
    createBlocks func ((place, id) :: numbers) (place + 1) rest

/-- The machine block noted for a place. No place outside the layout has one; it is kept as it is,
which is no machine block either. -/
def blockAt (numbers : List (Nat × BlockId)) (place : Nat) : BlockId :=
  (numbers.lookup place).getD place

/-- Push the instructions of a row of blocks, the first of which is at a place and starts with the
instruction at `inst`. -/
def fillBlocks (f : Function) (number : Nat → BlockId) (func : Func) (place inst : Nat) :
    List Block → Func
  | [] => func
  | b :: rest =>
    let filled := func.pushAll (number place) (f.lowerInsts number inst b.insts)
    f.fillBlocks number filled (place + 1) (inst + b.insts.length) rest

/-- The machine function of a function. All blocks are created before the first instruction is
pushed, so branches may lead to blocks that come later. -/
def lower (f : Function) : Func :=
  let (func, numbers) := createBlocks { name := f.name } [] 0 f.blocks
  f.fillBlocks (blockAt numbers) func 0 0 f.blocks

end Function

/-- The machine program of a program. Declared functions stay as functions without blocks. -/
def Program.lower (program : Program) : Rejoin.Program :=
  { functions := program.functions.map Function.lower }

/-- What is shown of a Koopa text that gives no program. -/
def Error.diagnostic : Error → Diagnostic
  | rejected =>
    { message := "failed to parse Koopa IR"
      code := "reconv::koopa_parse" }
  | aborted =>
    { message := "failed to carry Koopa IR through"
      code := "reconv::koopa_abort" }

/-- Read a Koopa text as a machine program. -/
def parse (text : String) : Except Error Rejoin.Program :=
  (checkProgram (parseItems text)).map Program.lower

end Rejoin.Koopa
