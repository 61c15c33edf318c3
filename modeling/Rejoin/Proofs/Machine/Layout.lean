import Rejoin.Proofs.Machine.Building

/-!
# The layout of a function

A function made of given blocks by `Func.ofBlocks` numbers its instructions from zero in layout
order, although it creates all blocks before it pushes the first instruction. `Func.layFrom` writes
the blocks down with the numbers of their instructions, `Func.keyFrom` adds the numbers of the
blocks, `Func.parentsOf` lists the blocks of the instructions, and the module proves:

* `Func.ofBlocks_eq` — the function is the one written down in this way;
* `Func.insts_ofBlocks` — its instructions are those of the blocks one after the other, numbered
  from zero.
-/

namespace Rejoin

/-- Instructions with their numbers, the first of which is `n`. -/
def numberFrom (n : InstId) : List (Inst BlockId) → List (InstId × Inst BlockId)
  | [] => []
  | inst :: rest => (n, inst) :: numberFrom (n + 1) rest

@[simp]
theorem length_numberFrom (n : InstId) (insts : List (Inst BlockId)) :
    (numberFrom n insts).length = insts.length := by
  induction insts generalizing n with
  | nil => rfl
  | cons inst rest ih => rw [numberFrom, List.length_cons, List.length_cons, ih]

@[simp]
theorem map_snd_numberFrom (n : InstId) (insts : List (Inst BlockId)) :
    (numberFrom n insts).map Prod.snd = insts := by
  induction insts generalizing n with
  | nil => rfl
  | cons inst rest ih => rw [numberFrom, List.map_cons, ih]

/-- The numbers are consecutive. -/
@[simp]
theorem map_fst_numberFrom (n : InstId) (insts : List (Inst BlockId)) :
    (numberFrom n insts).map Prod.fst = List.range' n insts.length := by
  induction insts generalizing n with
  | nil => rfl
  | cons inst rest ih => rw [numberFrom, List.map_cons, ih, List.length_cons, List.range'_succ]

/-- An instruction is numbered by its place in the row. -/
theorem numberFrom_eq_mapIdx (n : InstId) (insts : List (Inst BlockId)) :
    numberFrom n insts = insts.mapIdx fun i inst => (n + i, inst) := by
  induction insts generalizing n with
  | nil => rfl
  | cons inst rest ih =>
    rw [numberFrom, ih, List.mapIdx_cons]
    simp [Nat.add_assoc, Nat.add_comm 1]

/-- Numbering goes on where it stopped. -/
theorem numberFrom_append (n : InstId) (first second : List (Inst BlockId)) :
    numberFrom n (first ++ second) =
      numberFrom n first ++ numberFrom (n + first.length) second := by
  induction first generalizing n with
  | nil => rfl
  | cons inst rest ih =>
    rw [List.cons_append, numberFrom, ih, numberFrom, List.cons_append, List.length_cons,
      Nat.add_assoc, Nat.add_comm 1]

namespace Func

/-- Labelled rows of instructions as blocks, the number of the first instruction being `n`. -/
def layFrom (n : InstId) : List (String × List (Inst BlockId)) → List Block
  | [] => []
  | (label, insts) :: rest => ⟨label, numberFrom n insts⟩ :: layFrom (n + insts.length) rest

/-- Blocks with their numbers, the first of which is `b`. -/
def keyFrom (b : BlockId) : List Block → List (BlockId × Block)
  | [] => []
  | block :: rest => (b, block) :: keyFrom (b + 1) rest

@[simp]
theorem map_snd_keyFrom (b : BlockId) (blocks : List Block) :
    (keyFrom b blocks).map Prod.snd = blocks := by
  induction blocks generalizing b with
  | nil => rfl
  | cons block rest ih => rw [keyFrom, List.map_cons, ih]

/-- The block of each instruction in a row of blocks, the last instruction first. -/
def parentsOf (layout : List (BlockId × Block)) : List (InstId × BlockId) :=
  (layout.flatMap fun entry => entry.2.insts.map fun inst => (inst.1, entry.1)).reverse

/-! ## Building a function -/

/-- Adding blocks in a row appends them, empty, under the next numbers. -/
private theorem foldl_addBlock_eq {f : Func} (hf : f.Built)
    (blocks : List (String × List (Inst BlockId))) :
    blocks.foldl (fun f block => f.addBlock block.1) f =
      { f with
        layout := f.layout ++ keyFrom f.nextBlock (blocks.map fun block => { label := block.1 })
        nextBlock := f.nextBlock + blocks.length } := by
  induction blocks generalizing f with
  | nil => simp [keyFrom]
  | cons block rest ih =>
    rw [List.foldl_cons, ih (hf.addBlock block.1), hf.consistent.addBlock_eq]
    simp [keyFrom, Nat.add_assoc, Nat.add_comm 1]

/-- Pushing a row of instructions to a block appends them, numbered from the next number on. -/
private theorem pushAll_eq {f : Func} (hf : f.Built) {b : BlockId}
    {before after : List (BlockId × Block)} {block : Block} (insts : List (Inst BlockId))
    (h : f.layout = before ++ (b, block) :: after) :
    f.pushAll b insts =
      { f with
        layout := before ++
          (b, { block with insts := block.insts ++ numberFrom f.nextInst insts }) :: after
        parents := ((numberFrom f.nextInst insts).map fun inst => (inst.1, b)).reverse ++ f.parents
        nextInst := f.nextInst + insts.length } := by
  -- one push at a time; the block is kept general because each push makes it longer
  induction insts generalizing f block with
  | nil =>
    cases f
    simp_all [pushAll, numberFrom]
  | cons inst rest ih =>
    have hpush : f.push b inst = _ :=
      congrArg Prod.snd (hf.consistent.pushInst_of_layout_eq h inst)
    rw [pushAll, List.foldl_cons, ← pushAll, ih (hf.push b inst) (congrArg Func.layout hpush),
      hpush]
    simp [numberFrom, Nat.add_assoc, Nat.add_comm 1]

/-- Filling the blocks that are still empty one after the other. -/
private theorem foldl_pushAll_eq {f : Func} (hf : f.Built) (done : List (BlockId × Block))
    (b : BlockId) (blocks : List (String × List (Inst BlockId)))
    (h : f.layout = done ++ keyFrom b (blocks.map fun block => { label := block.1 })) :
    (blocks.zipIdx b).foldl (fun f (block, b) => f.pushAll b block.2) f =
      { f with
        layout := done ++ keyFrom b (layFrom f.nextInst blocks)
        parents := parentsOf (keyFrom b (layFrom f.nextInst blocks)) ++ f.parents
        nextInst := f.nextInst + (blocks.flatMap Prod.snd).length } := by
  -- the blocks in `done` have been filled, those behind them are still empty
  induction blocks generalizing f done b with
  | nil =>
    cases f
    simpa [layFrom, keyFrom, parentsOf] using h
  | cons block rest ih =>
    rw [List.map_cons, keyFrom] at h
    rw [List.zipIdx_cons, List.foldl_cons]
    have hfill := pushAll_eq hf block.2 h
    have hlayout : (f.pushAll b block.2).layout =
        done ++ [(b, ⟨block.1, numberFrom f.nextInst block.2⟩)] ++
          keyFrom (b + 1) (rest.map fun block => { label := block.1 }) := by
      rw [hfill]
      simp
    rw [ih (hf.pushAll b block.2) _ (b + 1) hlayout, hfill]
    simp [layFrom, keyFrom, parentsOf, Nat.add_assoc]

/-- A function made of given blocks, written down. -/
theorem ofBlocks_eq (name : String) (blocks : List (String × List (Inst BlockId))) :
    ofBlocks name blocks =
      { name
        layout := keyFrom 0 (layFrom 0 blocks)
        parents := parentsOf (keyFrom 0 (layFrom 0 blocks))
        nextBlock := blocks.length
        nextInst := (blocks.flatMap Prod.snd).length } := by
  have hadd := foldl_addBlock_eq (.empty name) blocks
  have hpush := foldl_pushAll_eq ((Built.empty name).foldl_addBlock blocks) [] 0 blocks
    (congrArg Func.layout hadd)
  rw [ofBlocks, hpush, hadd]
  simp

/-- The blocks of a function made of given blocks. -/
theorem blocks_ofBlocks (name : String) (blocks : List (String × List (Inst BlockId))) :
    (ofBlocks name blocks).blocks = layFrom 0 blocks := by
  rw [ofBlocks_eq, Func.blocks, map_snd_keyFrom]

theorem name_ofBlocks (name : String) (blocks : List (String × List (Inst BlockId))) :
    (ofBlocks name blocks).name = name := by
  rw [ofBlocks_eq]

/-- Blocks that are laid out are numbered through. -/
theorem flatMap_insts_layFrom (n : InstId) (blocks : List (String × List (Inst BlockId))) :
    (layFrom n blocks).flatMap Block.insts = numberFrom n (blocks.flatMap Prod.snd) := by
  induction blocks generalizing n with
  | nil => rfl
  | cons block rest ih =>
    rw [layFrom, List.flatMap_cons, ih, List.flatMap_cons, numberFrom_append]

/-- The instructions of a function made of given blocks. -/
theorem insts_ofBlocks (name : String) (blocks : List (String × List (Inst BlockId))) :
    (ofBlocks name blocks).insts = numberFrom 0 (blocks.flatMap Prod.snd) := by
  rw [insts, blocks_ofBlocks, flatMap_insts_layFrom]

/-- The labelled rows of instructions of a function, without their numbers. -/
def rows (f : Func) : List (String × List (Inst BlockId)) :=
  f.blocks.map fun block => (block.label, block.insts.map Prod.snd)

/-- A function is made of its rows. -/
theorem rows_ofBlocks (name : String) (blocks : List (String × List (Inst BlockId))) :
    (ofBlocks name blocks).rows = blocks := by
  have hlay (n : InstId) : (layFrom n blocks).map
      (fun block => (block.label, block.insts.map Prod.snd)) = blocks := by
    induction blocks generalizing n with
    | nil => rfl
    | cons block rest ih => rw [layFrom, List.map_cons, ih, map_snd_numberFrom]
  rw [rows, blocks_ofBlocks, hlay]

theorem length_layFrom (n : InstId) (blocks : List (String × List (Inst BlockId))) :
    (layFrom n blocks).length = blocks.length := by
  induction blocks generalizing n with
  | nil => rfl
  | cons block rest ih => rw [layFrom, List.length_cons, List.length_cons, ih]

end Func

end Rejoin
