import Rejoin.Machine.Inst

/-!
# Functions

A function is a list of labelled blocks in layout order, and a block a list of instructions. Both
are found by number. Numbers are given out by two counters; that of instructions advances with every
push, also with one to a block that does not exist, so numbers are never given out twice. Beside its
blocks a function keeps which block each instruction was pushed to.
-/

namespace Rejoin

/-- Append an entry to a list of entries with keys. A key that is taken is refused. -/
def pushBack? {α : Type} (entries : List (Nat × α)) (key : Nat) (value : α) :
    Option (List (Nat × α)) :=
  if (entries.lookup key).isSome then none else some (entries ++ [(key, value)])

/-- A basic block. -/
structure Block where
  /-- Label of the block. -/
  label : String
  /-- The instructions in order, each with its number. -/
  insts : List (InstId × Inst BlockId) := []
deriving DecidableEq, Repr, Inhabited

/-- The first entry after the one numbered `id` whose instruction satisfies `p`. -/
def findAfter (id : InstId) (p : Inst BlockId → Bool) (insts : List (InstId × Inst BlockId)) :
    Option InstId :=
  match insts.dropWhile (·.1 != id) with
  | [] => none
  | _ :: later => (later.find? fun entry => p entry.2).map (·.1)

namespace Block

/-- The instruction numbered `id`. -/
def inst? (block : Block) (id : InstId) : Option (Inst BlockId) :=
  block.insts.lookup id

/-- The number of the last instruction. -/
def last? (block : Block) : Option InstId :=
  block.insts.getLast?.map (·.1)

/-- The last instruction, if it ends the block. -/
def terminator? (block : Block) : Option (Inst BlockId) :=
  (block.insts.getLast?.map (·.2)).filter Inst.isTerminator

/-- The first instruction after `id` that satisfies `p`. -/
def next? (block : Block) (id : InstId) (p : Inst BlockId → Bool) : Option InstId :=
  findAfter id p block.insts

/-- The last instruction before `id` that satisfies `p`. -/
def prev? (block : Block) (id : InstId) (p : Inst BlockId → Bool) : Option InstId :=
  findAfter id p block.insts.reverse

/-- Append an instruction with a number that the block does not have yet. -/
def push? (block : Block) (id : InstId) (inst : Inst BlockId) : Option Block :=
  (pushBack? block.insts id inst).map fun insts => { block with insts }

end Block

/-- A machine function. -/
structure Func where
  /-- Name of the function. -/
  name : String
  /-- The blocks in layout order, each with its number. -/
  layout : List (BlockId × Block) := []
  /-- The block of each instruction, the latest entry first. -/
  parents : List (InstId × BlockId) := []
  /-- The number the next block will get. -/
  nextBlock : BlockId := 0
  /-- The number the next instruction will get. -/
  nextInst : InstId := 0
deriving DecidableEq, Repr, Inhabited

namespace Func

/-- The blocks in layout order. -/
def blocks (f : Func) : List Block :=
  f.layout.map Prod.snd

/-- The block numbered `b`. -/
def block? (f : Func) (b : BlockId) : Option Block :=
  f.layout.lookup b

/-- Put other contents into the block numbered `b`. -/
def setBlock (f : Func) (b : BlockId) (block : Block) : Func :=
  { f with layout := f.layout.map fun entry => if entry.1 = b then (b, block) else entry }

/-- Append an empty block: its number, and the function with it. -/
def newBlock (f : Func) (label : String) : BlockId × Func :=
  let id := f.nextBlock
  (id, { f with
    layout := (pushBack? f.layout id { label }).getD f.layout
    nextBlock := id + 1 })

/-- Append an instruction to the block numbered `b`: the number it gets, if the block exists, and
the function after it. The number is taken from the counter before the block is looked for. -/
def pushInst (f : Func) (b : BlockId) (inst : Inst BlockId) : Option InstId × Func :=
  let id := f.nextInst
  let f := { f with nextInst := id + 1 }
  match (f.block? b).bind fun block => block.push? id inst with
  | none => (none, f)
  | some block =>
    let f := f.setBlock b block
    (some id, { f with parents := (id, b) :: f.parents })

/-- The function after a block is appended. -/
def addBlock (f : Func) (label : String) : Func :=
  (f.newBlock label).2

/-- The function after an instruction is pushed to the block numbered `b`. -/
def push (f : Func) (b : BlockId) (inst : Inst BlockId) : Func :=
  (f.pushInst b inst).2

/-- Every instruction in layout order, each with its number. -/
def insts (f : Func) : List (InstId × Inst BlockId) :=
  f.blocks.flatMap Block.insts

/-- The number of the block that owns the instruction numbered `id`. -/
def parent? (f : Func) (id : InstId) : Option BlockId :=
  f.parents.lookup id

/-- The contents of the block that owns the instruction numbered `id`. -/
def owner? (f : Func) (id : InstId) : Option Block :=
  (f.parent? id).bind f.block?

/-- The instruction numbered `id`, looked up in the block that owns it. -/
def inst? (f : Func) (id : InstId) : Option (Inst BlockId) :=
  (f.owner? id).bind fun block => block.inst? id

/-- The number of the first block. -/
def entry? (f : Func) : Option BlockId :=
  f.layout.head?.map Prod.fst

/-- The number of the block laid out after the block numbered `b`. -/
def layoutNext? (f : Func) (b : BlockId) : Option BlockId :=
  match f.layout.dropWhile (·.1 != b) with
  | [] => none
  | _ :: later => later.head?.map Prod.fst

/-- How control leaves the block numbered `b`. A block without a terminator falls through to the
block laid out after it, and the last one leaves the function. -/
def transfer (f : Func) (b : BlockId) : Transfer BlockId :=
  match ((f.block? b).bind Block.terminator?).map Inst.kind with
  | some (.branch _ onTrue onFalse) => .branch onTrue onFalse
  | some (.jump target) => .jump target
  | some (.ret _) => .leave
  | some .op | none =>
    match f.layoutNext? b with
    | some next => .jump next
    | none => .leave

/-- The first instruction after `id` in its block that satisfies `p`. -/
def next? (f : Func) (id : InstId) (p : Inst BlockId → Bool) : Option InstId :=
  (f.owner? id).bind fun block => block.next? id p

/-- The last instruction before `id` in its block that satisfies `p`. -/
def prev? (f : Func) (id : InstId) (p : Inst BlockId → Bool) : Option InstId :=
  (f.owner? id).bind fun block => block.prev? id p

/-- How control leaves each block, in layout order. -/
def transfers (f : Func) : List (BlockId × Transfer BlockId) :=
  f.layout.map fun entry => (entry.1, f.transfer entry.1)

/-- Push a row of instructions to the block numbered `b`. -/
def pushAll (f : Func) (b : BlockId) (insts : List (Inst BlockId)) : Func :=
  insts.foldl (fun f inst => f.push b inst) f

/-- The function with the given blocks, all of them created before the first instruction is
pushed. -/
def ofBlocks (name : String) (blocks : List (String × List (Inst BlockId))) : Func :=
  let empty := blocks.foldl (fun f block => f.addBlock block.1) { name }
  blocks.zipIdx.foldl (fun f (block, b) => f.pushAll b block.2) empty

end Func

/-- Functions that are analysed together, in the order in which they are identified. -/
structure Program where
  /-- The functions. -/
  functions : List Func := []
deriving DecidableEq, Repr, Inhabited

end Rejoin
