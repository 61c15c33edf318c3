import Rejoin.Proofs.Machine.Consistent

/-!
# Functions built step by step

A function starts without blocks. It grows by empty blocks at its end and by instructions that are
pushed to one of its blocks, in any order. `Func.Built` describes the functions that arise in this
way, among them all those made of given blocks, and all of them are consistent:
`Func.Built.consistent`.
-/

namespace Rejoin.Func

/-- Functions that come from one without blocks by adding blocks and pushing instructions. An
instruction may be pushed to a block that does not exist. -/
inductive Built : Func → Prop
  /-- A function without blocks. -/
  | empty (name : String) : Built { name }
  /-- A block is added. -/
  | addBlock {f : Func} (label : String) : Built f → Built (f.addBlock label)
  /-- An instruction is pushed. -/
  | push {f : Func} (b : BlockId) (inst : Inst BlockId) : Built f → Built (f.push b inst)

namespace Built

variable {f : Func}

/-- The parts of a function that is built step by step agree. -/
theorem consistent (hf : f.Built) : f.Consistent := by
  induction hf with
  | empty name => exact consistent_empty name
  | addBlock label _ ih => exact ih.addBlock label
  | push b inst _ ih => exact ih.push b inst

theorem nodup_ids (hf : f.Built) : (f.insts.map Prod.fst).Nodup :=
  hf.consistent.nodup_ids

/-- A row of blocks may be added. -/
theorem foldl_addBlock (hf : f.Built) (rows : List (String × List (Inst BlockId))) :
    (rows.foldl (fun f row => f.addBlock row.1) f).Built := by
  induction rows generalizing f with
  | nil => exact hf
  | cons row rest ih => exact ih (hf.addBlock row.1)

/-- A row of instructions may be pushed. -/
theorem pushAll (hf : f.Built) (b : BlockId) (insts : List (Inst BlockId)) :
    (f.pushAll b insts).Built := by
  induction insts generalizing f with
  | nil => exact hf
  | cons inst rest ih => exact ih (hf.push b inst)

/-- Rows of instructions may be pushed to several blocks. -/
theorem foldl_pushAll (hf : f.Built)
    (rows : List ((String × List (Inst BlockId)) × BlockId)) :
    (rows.foldl (fun f (row, b) => f.pushAll b row.2) f).Built := by
  induction rows generalizing f with
  | nil => exact hf
  | cons row rest ih => exact ih (hf.pushAll row.2 row.1.2)

end Built

/-- A function made of given blocks is built by adding the blocks and pushing the instructions. -/
theorem built_ofBlocks (name : String) (blocks : List (String × List (Inst BlockId))) :
    (ofBlocks name blocks).Built :=
  ((Built.empty name).foldl_addBlock blocks).foldl_pushAll blocks.zipIdx

end Rejoin.Func
