import Rejoin.Dependence.Numbering

/-!
# Data dependence

From a row of seeds the closure follows consumers breadth first. Every numbered consumer of an
instruction in the closure is found. Where the instruction set fuses compares with branches, a
conditional branch that directly follows a found consumer is found with it, unless it has been
worked through already. Seeds are found only if something feeds them.
-/

namespace Rejoin

/-- What data dependence is computed from. -/
structure DataFlow where
  /-- The function. -/
  func : Func
  /-- The instruction set by which it is analysed. -/
  isa : Isa
  /-- The numbers of its instructions. -/
  numbering : Numbering
  /-- The consumers of each instruction. -/
  consumers : InstId → List InstId

namespace DataFlow

/-- Whether an instruction has a number. -/
def isNumbered (flow : DataFlow) (id : InstId) : Bool :=
  (flow.numbering.number? id).isSome

/-- Whether an instruction is a conditional branch. -/
def isBranch (flow : DataFlow) (id : InstId) : Bool :=
  (flow.func.inst? id).any Inst.isBranch

/-- The numbered conditional branch that an instruction is fused with: the next substantive
instruction of its block, if the instruction set fuses. -/
def fusedBranch? (flow : DataFlow) (id : InstId) : Option InstId :=
  if flow.isa.fuses then
    (flow.func.next? id flow.isa.isSubstantive).filter fun next =>
      flow.isBranch next && flow.isNumbered next
  else none

/-- What is found by working through an instruction: each numbered consumer, followed by the branch
it is fused with unless that is among the `processed` ones. -/
def found (flow : DataFlow) (processed : List InstId) (id : InstId) : List InstId :=
  ((flow.consumers id).filter flow.isNumbered).flatMap fun consumer =>
    consumer :: ((flow.fusedBranch? consumer).filter fun next => !processed.contains next).toList

/-- Work through the frontier, for at most `fuel` instructions, each only once. Gives everything
found. -/
def follow (flow : DataFlow) : Nat → List InstId → List InstId → List InstId
  | 0, _, _ => []
  | fuel + 1, processed, frontier =>
    match frontier.dropWhile fun id => processed.contains id with
    | [] => []
    | id :: rest =>
      let new := flow.found (id :: processed) id
      new ++ flow.follow fuel (id :: processed) (rest ++ new)

/-- The instructions that depend on the seeds. Only seeds and numbered instructions are worked
through, so as many steps as there are of both are enough. -/
def closure (flow : DataFlow) (seeds : List InstId) : List InstId :=
  flow.follow (seeds.length + flow.numbering.numbers.length) [] seeds

end DataFlow

end Rejoin
