import Rejoin.Machine.Func

/-!
# Printed functions

A function is printed as a listing in which the block numbered `n` is labelled `bbn`, with its own
label in a comment.
-/

namespace Rejoin

/-- The printed name of a block. -/
def blockName (b : BlockId) : String :=
  "bb" ++ decimal b

/-- The text of an instruction in a function. -/
def Inst.text (inst : Inst BlockId) : String :=
  inst.render blockName

/-- The text of a block: its name, its label in a comment, and its instructions, one a line. -/
def Block.render (b : BlockId) (block : Block) : String :=
  blockName b ++ ": // " ++ block.label ++ "\n" ++
    String.join (block.insts.map fun entry => "    " ++ entry.2.text ++ "\n")

/-- The text of a function. -/
def Func.render (f : Func) : String :=
  "func " ++ f.name ++ " \x7b\n" ++
    String.join (f.layout.map fun (b, block) => block.render b) ++ "\x7d\n"

end Rejoin
