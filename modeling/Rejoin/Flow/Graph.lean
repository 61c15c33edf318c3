import Rejoin.Flow.Transfer
import Rejoin.Flow.PostDominance

/-!
# Control flow graphs

The graph of a list of blocks, each given by its number and the way control leaves it. Blocks keep
their order. A block that is listed more than once is one node, at its last place in the list, with
the edges of all its listings.

* `Graph.ofBlocks?` builds the graph; it fails if a target is not listed.
* `Graph.succs` are the successors of a block, the true target first.
* `Graph.region` are the blocks that can be entered from a block without entering another.
* `PostDominators` holds the immediate post-dominators.
-/

namespace Rejoin

/-- A control flow graph: the digraph and the block at each of its positions. -/
structure Graph where
  /-- The block at each position. -/
  ids : Array BlockId
  /-- The edges between positions. -/
  edges : Digraph
deriving DecidableEq, Repr, Inhabited

namespace Graph

/-- The blocks of a list, each at the place where it is listed last. -/
def nodes (blocks : List (BlockId × Transfer BlockId)) : List BlockId :=
  (blocks.map Prod.fst).reverse.eraseDups.reverse

/-- The targets of a block over all its listings: true targets, then false targets, then jump
targets, each kind from the latest listing to the first. A target that follows itself is listed
once. -/
def targets (blocks : List (BlockId × Transfer BlockId)) (id : BlockId) : List BlockId :=
  let listings := (blocks.reverse.filter (·.1 == id)).map (·.2)
  let onTrue := listings.filterMap fun
    | .branch t _ => some t
    | .jump _ | .leave => none
  let onFalse := listings.filterMap fun
    | .branch _ e => some e
    | .jump _ | .leave => none
  let jumps := listings.filterMap fun
    | .jump t => some t
    | .branch .. | .leave => none
  (onTrue ++ onFalse ++ jumps).eraseReps

/-- Whether every target is one of the blocks. -/
def targetsListed (blocks : List (BlockId × Transfer BlockId)) : Bool :=
  blocks.all fun block => block.2.targets.all fun target => (blocks.map Prod.fst).contains target

/-- The graph of a list of blocks whose targets are all listed. -/
def ofBlocks (blocks : List (BlockId × Transfer BlockId)) : Graph :=
  let ids := nodes blocks
  { ids := ids.toArray
    edges := ⟨(ids.map fun id => (targets blocks id).map ids.idxOf).toArray⟩ }

/-- The graph of a list of blocks. Fails if a target is not one of the blocks. -/
def ofBlocks? (blocks : List (BlockId × Transfer BlockId)) : Option Graph :=
  if targetsListed blocks then some (ofBlocks blocks) else none

/-- The position of a block. -/
def position? (g : Graph) (id : BlockId) : Option Nat :=
  g.ids.idxOf? id

/-- The blocks at the given positions. -/
def blocksAt (g : Graph) (positions : List Nat) : List BlockId :=
  positions.filterMap fun p => g.ids[p]?

/-- The successors of a block; a block outside the graph has none. -/
def succs (g : Graph) (id : BlockId) : List BlockId :=
  match g.position? id with
  | none => []
  | some p => g.blocksAt (g.edges.next p)

/-- The blocks that can be entered after leaving `block` without entering `point`, in the order of
a breadth-first search. -/
def region (g : Graph) (block point : BlockId) : List BlockId :=
  match g.position? block with
  | none => []
  | some p =>
    let free := match g.position? point with
      | none => g.edges.allFree
      | some stop => g.edges.allFreeBut stop
    g.blocksAt (g.edges.sweep free (g.edges.next p))

end Graph

/-- The immediate post-dominators of the blocks of a graph. -/
structure PostDominators where
  /-- The graph. -/
  graph : Graph
  /-- The immediate post-dominator of each position. -/
  immediates : Array (Option Nat)
deriving DecidableEq, Repr, Inhabited

namespace PostDominators

/-- Find the post-dominators of a graph. -/
def ofGraph (g : Graph) : PostDominators :=
  ⟨g, g.edges.immediates⟩

/-- The immediate post-dominator of a block. -/
def immediate? (pd : PostDominators) (id : BlockId) : Option BlockId := do
  let p ← pd.graph.position? id
  let q ← pd.immediates.getD p none
  pd.graph.ids[q]?

end PostDominators

end Rejoin
