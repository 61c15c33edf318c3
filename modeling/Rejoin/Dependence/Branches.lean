import Rejoin.Dependence.Closure
import Rejoin.Dependence.Error
import Rejoin.Dependence.Region

/-!
# Dependents of branches

A branch reconverges at the immediate post-dominator of its block. The dependents of a branch with
such a point are the substantive instructions of its region, together with everything that depends
on data from the branch, from the instruction that produces its predicate, or from the region. A
branch without such a point is skipped.
-/

namespace Rejoin

/-- A conditional branch and the block where its ways rejoin. -/
structure BranchSite where
  /-- The branch. -/
  inst : InstId
  /-- The block that owns it. -/
  block : BlockId
  /-- The reconvergence point, if there is one. -/
  point : Option BlockId
deriving DecidableEq, Repr, Inhabited

/-- The dependents of one branch. -/
structure BranchDependents where
  /-- Number of the branch. -/
  branch : Nat
  /-- The branch. -/
  inst : InstId
  /-- The block that owns it. -/
  block : BlockId
  /-- The reconvergence point. -/
  point : BlockId
  /-- Numbers of the substantive instructions of the region, ascending. -/
  control : List Nat
  /-- Numbers of the data-dependent instructions, ascending. -/
  data : List Nat
  /-- Numbers in `control` or `data`, ascending. -/
  dependents : List Nat
deriving DecidableEq, Repr, Inhabited

/-- A branch without a reconvergence point. -/
structure SkippedBranch where
  /-- Number of the branch. -/
  branch : Nat
  /-- The branch. -/
  inst : InstId
  /-- The block that owns it. -/
  block : BlockId
deriving DecidableEq, Repr, Inhabited

/-- Totals of a function. -/
structure Summary where
  /-- Substantive instructions. -/
  instructions : Nat := 0
  /-- Analysed branches. -/
  branches : Nat := 0
  /-- Branches without a reconvergence point. -/
  skipped : Nat := 0
  /-- Instructions that depend on some branch. -/
  dependent : Nat := 0
  /-- Instructions that depend on no branch. -/
  independent : Nat := 0
deriving DecidableEq, Repr, Inhabited

/-- What the analysis of a function finds. -/
structure Dependencies where
  /-- Identifier of the function. -/
  functionId : UInt32
  /-- Name of the function. -/
  name : String
  /-- The analysed branches in layout order. -/
  branches : List BranchDependents
  /-- The skipped branches in layout order. -/
  skipped : List SkippedBranch
  /-- Totals. -/
  summary : Summary
deriving DecidableEq, Repr, Inhabited

/-- The conditional branches of a function in layout order, with the points that `point?` gives to
their blocks. -/
def branchSites (f : Func) (point? : BlockId → Option BlockId) : List BranchSite :=
  f.layout.flatMap fun (b, block) =>
    (block.insts.filter fun entry => entry.2.isBranch).map fun entry => ⟨entry.1, b, point? b⟩

/-- What the dependents of branches are computed from. -/
structure Setting extends DataFlow where
  /-- The control flow graph. -/
  graph : Graph
  /-- The reconvergence point of a branch in a block. -/
  point? : BlockId → Option BlockId

namespace Setting

/-- The number of an instruction that should have one. -/
def number (s : Setting) (id : InstId) : Except AnalysisError Nat :=
  match s.numbering.number? id with
  | some number => .ok number
  | none => .error (.unnumbered s.func.name id)

/-- The substantive instructions of a region, in its order. -/
def controlled (s : Setting) (block point : BlockId) : List InstId :=
  (Region.ofBranch s.graph s.func block point).insts.filter fun id =>
    (s.func.inst? id).any s.isa.isSubstantive

/-- The seeds of the data dependents of a branch: the branch, the nearest substantive instruction
before it, which produces its predicate, and the instructions it controls. -/
def seeds (s : Setting) (inst : InstId) (controlled : List InstId) : List InstId :=
  inst :: (s.func.prev? inst s.isa.isSubstantive).toList ++ controlled

/-- The dependents of a branch that reconverges at `point`. -/
def dependentsOf (s : Setting) (inst : InstId) (block point : BlockId) :
    Except AnalysisError BranchDependents := do
  let branch ← s.number inst
  let controlled := s.controlled block point
  let _ ← controlled.mapM s.number
  let found := s.closure (s.seeds inst controlled)
  pure
    { branch, inst, block, point
      control := s.numbering.collect controlled
      data := s.numbering.collect found
      dependents := s.numbering.collect (controlled ++ found) }

/-- Analyse or skip a branch. -/
def analyseSite (s : Setting) (site : BranchSite) :
    Except AnalysisError (BranchDependents ⊕ SkippedBranch) :=
  match site.point with
  | some point => do
    let dependents ← s.dependentsOf site.inst site.block point
    pure (.inl dependents)
  | none => do
    let branch ← s.number site.inst
    pure (.inr { branch, inst := site.inst, block := site.block })

/-- How many numbers below `size` are dependents of some branch. -/
def countDependent (size : Nat) (branches : List BranchDependents) : Nat :=
  ((List.range size).filter fun n => branches.any fun b => b.dependents.contains n).length

end Setting

namespace Dependencies

/-- The result for a function without branches. -/
def empty (f : Func) (numbering : Numbering) : Dependencies :=
  { functionId := numbering.functionId
    name := f.name
    branches := []
    skipped := []
    summary := { instructions := numbering.size, independent := numbering.size } }

/-- Find the dependents of every conditional branch of a function. -/
def analyse (s : Setting) : Except AnalysisError Dependencies := do
  let results ← (branchSites s.func s.point?).mapM s.analyseSite
  let branches := results.filterMap fun
    | .inl dependents => some dependents
    | .inr _ => none
  let skipped := results.filterMap fun
    | .inl _ => none
    | .inr branch => some branch
  let size := s.numbering.size
  let dependent := Setting.countDependent size branches
  pure
    { functionId := s.numbering.functionId
      name := s.func.name
      branches, skipped
      summary :=
        { instructions := size
          branches := branches.length
          skipped := skipped.length
          dependent
          independent := size - dependent } }

end Dependencies

end Rejoin
