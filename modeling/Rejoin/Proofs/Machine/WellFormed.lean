import Rejoin.Dependence.Branches
import Rejoin.Proofs.Flow.Graph
import Rejoin.Proofs.Machine.Layout
import Rejoin.Proofs.Machine.Lookup

/-!
# Well-formed functions

What the analysis relies on in the functions it is given. Their parts agree, and branches and jumps
lead to blocks of the function; that is enough for the analysis to succeed, since the control flow
of such a function is a list of distinct blocks with listed targets. The functions of programs that
are read have in addition that a block goes on with nothing after the instruction that ends it.
-/

namespace Rejoin

/-- The blocks an instruction may lead to. -/
def Inst.targets {τ : Type} (inst : Inst τ) : List τ :=
  match inst.kind with
  | .op | .ret _ => []
  | .branch _ onTrue onFalse => [onTrue, onFalse]
  | .jump target => [target]

namespace Inst

variable {τ : Type}

@[simp]
theorem targets_op (opcode : String) (operands : List Operand) (result : Option String) :
    (op opcode operands result : Inst τ).targets = [] :=
  rfl

@[simp]
theorem targets_branch (cond : Option Operand) (onTrue onFalse : τ) :
    (branch cond onTrue onFalse).targets = [onTrue, onFalse] :=
  rfl

@[simp]
theorem targets_jump (target : τ) : (jump target).targets = [target] :=
  rfl

@[simp]
theorem targets_ret (value : Option Operand) : (ret value : Inst τ).targets = [] :=
  rfl

end Inst

namespace Func

/-- The parts of a function agree, and its targets are blocks of it. -/
structure Linked (f : Func) : Prop where
  /-- The parts agree. -/
  consistent : f.Consistent
  /-- Targets are blocks of the function. -/
  targets_lt : ∀ entry ∈ f.insts, ∀ target ∈ entry.2.targets, target < f.blocks.length

/-- A linked function whose blocks end where control leaves them. -/
structure WellFormed (f : Func) : Prop extends Linked f where
  /-- Only the last instruction of a block may end it. -/
  terminator_last : ∀ block ∈ f.blocks, ∀ entry ∈ block.insts.dropLast,
    entry.2.isTerminator = false

variable {f : Func} {b : BlockId} {x y : InstId}

theorem Linked.nodup_ids (hf : f.Linked) : (f.insts.map Prod.fst).Nodup :=
  hf.consistent.nodup_ids

/-- Every block has a row in the control flow, in the order of the layout. -/
theorem Consistent.map_fst_transfers (hf : f.Consistent) :
    f.transfers.map Prod.fst = List.range f.blocks.length := by
  rw [← hf.map_fst_layout, transfers, List.map_map]
  rfl

/-- The row of a block says how control leaves it. -/
theorem Consistent.mem_transfers_iff (hf : f.Consistent) {transfer : Transfer BlockId} :
    (b, transfer) ∈ f.transfers ↔ b < f.blocks.length ∧ f.transfer b = transfer := by
  have hmem : b < f.blocks.length ↔ ∃ block, (b, block) ∈ f.layout := by
    rw [← List.mem_range, ← hf.map_fst_layout]
    simp
  simp only [hmem, transfers, List.mem_map, Prod.mk.injEq]
  constructor
  · rintro ⟨⟨_, block⟩, hentry, rfl, rfl⟩
    exact ⟨⟨block, hentry⟩, rfl⟩
  · rintro ⟨⟨block, hentry⟩, rfl⟩
    exact ⟨_, hentry, rfl, rfl⟩

/-- The control flow of a function is given by how many blocks it has and by how they end. -/
theorem transfers_eq_of_ends {f' : Func} (hf : f.Consistent) (hf' : f'.Consistent)
    (hlength : f'.blocks.length = f.blocks.length)
    (hend : ∀ b, ((f'.block? b).bind Block.terminator?).map Inst.kind =
      ((f.block? b).bind Block.terminator?).map Inst.kind) : f'.transfers = f.transfers := by
  have hkeys : ∀ g : Func, g.transfers =
      (g.layout.map Prod.fst).map fun b => (b, g.transfer b) := by
    intro g
    rw [transfers, List.map_map]
    rfl
  rw [hkeys, hkeys, hf.map_fst_layout, hf'.map_fst_layout, hlength]
  refine List.map_congr_left fun b _ => ?_
  rw [transfer, transfer, hend, hf.layoutNext?_eq, hf'.layoutNext?_eq, hlength]

/-- A transfer leads where the instruction that ends the block leads, or to the next block. -/
private theorem mem_targets_transfer {target : BlockId}
    (h : target ∈ (f.transfer b).targets) :
    (∃ block inst, f.block? b = some block ∧ block.terminator? = some inst ∧
        target ∈ inst.targets) ∨ f.layoutNext? b = some target := by
  -- with no instruction that ends it, a block leads to the next one
  have hfall : f.transfer b = (f.layoutNext? b).elim .leave .jump →
      f.layoutNext? b = some target := by
    intro heq
    rw [heq] at h
    cases hnext : f.layoutNext? b with
    | none => simp [hnext, Transfer.targets] at h
    | some next =>
      rw [hnext] at h
      simp only [Option.elim_some, Transfer.targets, List.mem_singleton] at h
      rw [h]
  cases hend : (f.block? b).bind Block.terminator? with
  | none =>
    refine Or.inr (hfall ?_)
    rw [transfer, hend]
    cases f.layoutNext? b <;> rfl
  | some inst =>
    obtain ⟨block, hblock, hinst⟩ := Option.bind_eq_some_iff.mp hend
    obtain ⟨opcode, operands, result, kind⟩ := inst
    cases kind with
    | op =>
      refine Or.inr (hfall ?_)
      rw [transfer, hend]
      cases f.layoutNext? b <;> rfl
    | branch =>
      rw [transfer, hend] at h
      exact Or.inl ⟨block, _, hblock, hinst, h⟩
    | jump =>
      rw [transfer, hend] at h
      exact Or.inl ⟨block, _, hblock, hinst, h⟩
    | ret =>
      rw [transfer, hend] at h
      simp [Transfer.targets] at h

/-- What ends a block is one of its instructions. -/
private theorem mem_of_terminator? {block : Block} {inst : Inst BlockId}
    (h : block.terminator? = some inst) : ∃ id, (id, inst) ∈ block.insts := by
  rw [Block.terminator?, Option.filter_eq_some_iff, Option.map_eq_some_iff] at h
  obtain ⟨⟨⟨id, _⟩, hlast, rfl⟩, -⟩ := h
  exact ⟨id, List.mem_of_getLast? hlast⟩

/-- The control flow of a linked function is a list of distinct blocks with listed targets. -/
theorem Linked.wellListed (hf : f.Linked) : Graph.WellListed f.transfers := by
  have hkeys := hf.consistent.map_fst_transfers
  refine ⟨?_, ?_⟩
  · rw [hkeys]
    exact List.nodup_range
  · rintro ⟨b, transfer⟩ hmem target htarget
    obtain ⟨-, rfl⟩ := hf.consistent.mem_transfers_iff.mp hmem
    rw [hkeys, List.mem_range]
    -- a target is named by the terminator, or it is the next block in the layout
    rcases mem_targets_transfer htarget with ⟨block, inst, hblock, hinst, ht⟩ | hnext
    · obtain ⟨id, hid⟩ := mem_of_terminator? hinst
      have hentry : (id, inst) ∈ f.insts :=
        mem_insts_iff.mpr ⟨block, mem_blocks_of_block? hblock, hid⟩
      exact hf.targets_lt _ hentry target ht
    · rw [hf.consistent.layoutNext?_eq] at hnext
      split at hnext
      · obtain rfl := Option.some.inj hnext
        assumption
      · cases hnext

/-- An instruction that another one follows in its block does not end the block. -/
theorem WellFormed.not_terminator_of_adjacent (hf : f.WellFormed) {p : Inst BlockId → Bool}
    (h : f.Adjacent p x y) {inst : Inst BlockId} (hinst : f.inst? x = some inst) :
    inst.isTerminator = false := by
  obtain ⟨block, hblock, before, between, after, instX, instY, heq, -⟩ := h
  have hx : (x, instX) ∈ f.insts := mem_insts_iff.mpr ⟨block, hblock, by simp [heq]⟩
  rw [(inst?_eq_some_iff hf.consistent).mpr hx] at hinst
  obtain rfl := Option.some.inj hinst
  -- something stands after `x`, so `x` is not the last instruction of its block
  have hdrop : (x, instX) ∈ block.insts.dropLast := by
    rw [heq, List.dropLast_append_of_ne_nil (by simp)]
    simp
  exact hf.terminator_last block hblock _ hdrop

/-- What makes a function of labelled rows of instructions well formed. -/
structure WellFormedRows (rows : List (String × List (Inst BlockId))) : Prop where
  /-- Only the last instruction of a row may end it. -/
  terminator_last : ∀ row ∈ rows, ∀ inst ∈ row.2.dropLast, inst.isTerminator = false
  /-- Targets are places of rows. -/
  targets_lt : ∀ row ∈ rows, ∀ inst ∈ row.2, ∀ target ∈ inst.targets, target < rows.length

/-- A block that is laid out has the instructions of a row. -/
private theorem exists_row_of_mem_layFrom {n : InstId} {rows : List (String × List (Inst BlockId))}
    {block : Block} (h : block ∈ layFrom n rows) :
    ∃ row ∈ rows, row.2 = block.insts.map Prod.snd := by
  induction rows generalizing n with
  | nil => simp [layFrom] at h
  | cons row rest ih =>
    rw [layFrom, List.mem_cons] at h
    rcases h with rfl | h
    · exact ⟨row, List.mem_cons_self, by simp⟩
    · obtain ⟨other, hmem, heq⟩ := ih h
      exact ⟨other, List.mem_cons_of_mem row hmem, heq⟩

/-- A function made of rows is linked if targets are places of rows. -/
theorem linked_ofBlocks {rows : List (String × List (Inst BlockId))}
    (h : ∀ row ∈ rows, ∀ inst ∈ row.2, ∀ target ∈ inst.targets, target < rows.length)
    (name : String) : (ofBlocks name rows).Linked := by
  refine ⟨(built_ofBlocks name rows).consistent, fun entry hentry target htarget => ?_⟩
  rw [blocks_ofBlocks, length_layFrom]
  obtain ⟨block, hblock, hmem⟩ := mem_insts_iff.mp hentry
  rw [blocks_ofBlocks] at hblock
  obtain ⟨row, hrow, heq⟩ := exists_row_of_mem_layFrom hblock
  refine h row hrow entry.2 ?_ target htarget
  rw [heq]
  exact List.mem_map_of_mem hmem

/-- A function made of well-formed rows is well formed. -/
theorem wellFormed_ofBlocks {rows : List (String × List (Inst BlockId))} (h : WellFormedRows rows)
    (name : String) : (ofBlocks name rows).WellFormed := by
  refine ⟨linked_ofBlocks h.targets_lt name, fun block hblock entry hentry => ?_⟩
  rw [blocks_ofBlocks] at hblock
  obtain ⟨row, hrow, heq⟩ := exists_row_of_mem_layFrom hblock
  refine h.terminator_last row hrow entry.2 ?_
  rw [heq, ← List.map_dropLast]
  exact List.mem_map_of_mem hentry

/-- The sites of branches are the conditional branches in the blocks of the function. -/
theorem mem_branchSites_iff (hf : f.Consistent) {point? : BlockId → Option BlockId}
    {site : BranchSite} :
    site ∈ branchSites f point? ↔ site.point = point? site.block ∧
      ∃ block, f.block? site.block = some block ∧
        ∃ inst, (site.inst, inst) ∈ block.insts ∧ inst.isBranch = true := by
  obtain ⟨id, b, point⟩ := site
  simp only [branchSites, List.mem_flatMap, List.mem_map, List.mem_filter, hf.block?_eq_some_iff,
    Prod.exists, BranchSite.mk.injEq]
  constructor
  · rintro ⟨_, block, hblock, _, inst, ⟨hmem, hbranch⟩, rfl, rfl, rfl⟩
    exact ⟨rfl, block, hblock, inst, hmem, hbranch⟩
  · rintro ⟨rfl, block, hblock, inst, hmem, hbranch⟩
    exact ⟨b, block, hblock, id, inst, ⟨hmem, hbranch⟩, rfl, rfl, rfl⟩

end Func

end Rejoin
