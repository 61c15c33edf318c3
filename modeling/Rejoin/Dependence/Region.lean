import Rejoin.Flow.Graph
import Rejoin.Machine.Func

/-!
# Regions controlled by a branch

The region of a branch holds the blocks that control can enter after the branch before it reaches
the block where both ways rejoin.
-/

namespace Rejoin

/-- The blocks and instructions controlled by a branch. -/
structure Region where
  /-- The blocks, in the order in which a breadth-first search enters them. -/
  blocks : List BlockId
  /-- The instructions of these blocks, annotations included. -/
  insts : List InstId
deriving DecidableEq, Repr, Inhabited

/-- The region of the branch that ends `block`, bounded by `point`. -/
def Region.ofBranch (g : Graph) (f : Func) (block point : BlockId) : Region :=
  let blocks := g.region block point
  { blocks
    insts := blocks.flatMap fun b =>
      match f.block? b with
      | none => []
      | some block => block.insts.map (·.1) }

end Rejoin
