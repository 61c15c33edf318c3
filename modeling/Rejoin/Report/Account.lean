import Rejoin.Dependence.Branches
import Rejoin.Machine.Printer

/-!
# Accounts

The account of an analysed function, for people to read: its blocks with the numbers of their
instructions, the dependents of its branches, the branches that were skipped, and the totals.
-/

namespace Rejoin

/-- Fill a text with blanks at its left up to a width of four characters. -/
def padLeft4 (text : String) : String :=
  String.ofList (List.replicate (4 - text.length) ' ') ++ text

/-- Numbers separated by blanks. -/
def joinNumbers (numbers : List Nat) : String :=
  String.intercalate " " (numbers.map decimal)

/-- The line of an instruction: its number, or a dash if it has none, and its text. -/
def instLine (numbering : Numbering) (id : InstId) (inst : Inst BlockId) : String :=
  let number := match numbering.number? id with
    | some n => decimal n
    | none => "-"
  "    " ++ padLeft4 number ++ "  " ++ inst.text ++ "\n"

/-- The lines of a block. -/
def blockLines (numbering : Numbering) (b : BlockId) (block : Block) : String :=
  "  " ++ blockName b ++ " " ++ block.label ++ ":\n" ++
    String.join (block.insts.map fun (id, inst) => instLine numbering id inst)

/-- The lines of an analysed branch. -/
def BranchDependents.account (b : BranchDependents) : String :=
  "  branch " ++ decimal b.branch ++ " in " ++ blockName b.block ++ " reconverges at " ++
    blockName b.point ++ "\n" ++
    "    control: " ++ joinNumbers b.control ++ "\n" ++
    "    data: " ++ joinNumbers b.data ++ "\n" ++
    "    dependents: " ++ joinNumbers b.dependents ++ "\n"

/-- The line of a skipped branch. -/
def SkippedBranch.account (b : SkippedBranch) : String :=
  "  branch " ++ decimal b.branch ++ " in " ++ blockName b.block ++
    " has no reconvergence point, skipped\n"

/-- The line of the totals. -/
def Summary.account (s : Summary) : String :=
  "  summary: " ++ decimal s.instructions ++ " instructions, " ++ decimal s.branches ++
    " branches (" ++ decimal s.skipped ++ " skipped), " ++ decimal s.dependent ++ " dependent, " ++
    decimal s.independent ++ " independent\n"

/-- The account of an analysed function. -/
def Dependencies.account (deps : Dependencies) (f : Func) (numbering : Numbering) : String :=
  "function " ++ f.name ++ " (id " ++ decimal deps.functionId.toNat ++ ")\n" ++
    String.join (f.layout.map fun (b, block) => blockLines numbering b block) ++
    String.join (deps.branches.map BranchDependents.account) ++
    String.join (deps.skipped.map SkippedBranch.account) ++
    deps.summary.account

end Rejoin
