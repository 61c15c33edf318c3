import Rejoin.Listing.Tree

/-!
# Printed listings

Functions are separated by an empty line, and instructions are indented by four blanks.
-/

namespace Rejoin.Listing

/-- Put four blanks before every line that is not empty. `fresh` says whether the text starts a
line. -/
def indentFrom (fresh : Bool) : List Char → List Char
  | [] => []
  | c :: rest =>
    if c = '\n' then c :: indentFrom true rest
    else if fresh then ' ' :: ' ' :: ' ' :: ' ' :: c :: indentFrom false rest
    else c :: indentFrom false rest

/-- Put four blanks before every line that is not empty. -/
def indent (text : String) : String :=
  String.ofList (indentFrom true text.toList)

/-- The text of an instruction, given the text of its targets. -/
def InstDef.render {τ : Type} (target : τ → String) : InstDef τ → String
  | op opcode operands result => opcode ++ renderOperands operands ++ renderResult result
  | branch cond onTrue onFalse =>
    "br " ++ renderCond cond ++ target onTrue ++ ", " ++ target onFalse
  | jump t => "jmp " ++ target t
  | ret none => "ret"
  | ret (some o) => "ret " ++ o.render

/-- The text of a block: its label, then its instructions, one a line. -/
def BlockDef.render (block : BlockDef) : String :=
  block.label.val ++ ":\n" ++
    String.join (block.insts.map fun inst => indent (inst.val.render Spanned.val ++ "\n"))

/-- The text of a function. -/
def FuncDef.render (func : FuncDef) : String :=
  "func " ++ func.name.val ++ " \x7b\n" ++ String.join (func.blocks.map BlockDef.render) ++ "\x7d\n"

/-- The text of a listing. -/
def Tree.render (listing : Tree) : String :=
  match listing.functions with
  | [] => ""
  | first :: others =>
    first.val.render ++ String.join (others.map fun func => "\n" ++ func.val.render)

end Rejoin.Listing
