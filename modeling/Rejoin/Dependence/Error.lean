import Rejoin.Diagnostic
import Rejoin.Machine.Inst

/-!
# Why an analysis fails
-/

namespace Rejoin

/-- Why a function cannot be analysed. -/
inductive AnalysisError where
  /-- The program has no function at this place. -/
  | unknownFunction (ordinal : Nat)
  /-- The function has no blocks. -/
  | declaration (function : String)
  /-- An instruction that should have a number has none. -/
  | unnumbered (function : String) (inst : InstId)
  /-- A branch or a jump leads to a block that does not exist. -/
  | danglingTarget
deriving DecidableEq, Repr, Inhabited

/-- What is shown of an analysis error. -/
def AnalysisError.diagnostic : AnalysisError → Diagnostic
  | unknownFunction ordinal =>
    { message := "no function with ordinal " ++ decimal ordinal
      code := "reconv::unknown_function" }
  | declaration function =>
    { message := "function `" ++ function ++ "` has no basic blocks"
      code := "reconv::declaration" }
  | unnumbered function inst =>
    { message := "instruction i" ++ decimal inst ++ " in `" ++ function ++ "` has no number"
      code := "reconv::unnumbered"
      help := some "the numbering and the analysed function are out of sync" }
  | danglingTarget =>
    { message := "a target is not one of the blocks"
      code := "reconv::dangling_target" }

end Rejoin
