import Rejoin.Proofs.Dependence.Dependents
import Rejoin.Report.Record

/-!
# Branches with their targets exchanged

Exchanging the targets of conditional branches turns the search through blocks round, and with it
the order in which the search along data meets fused branches. So the instructions that this search
finds may differ. Together with what a branch controls they are still the same, since both are the
least set closed under the rules of dependence, and these rules know nothing of the order of
targets: `analyse_of_mirrors`.

* `Func.Mirrors` — one function is another one with targets exchanged;
* `Func.Mirrors.exitGraph` and `Func.Mirrors.dependenceClosed` — control flow and the rules of
  dependence are the same in both;
* `Func.Mirrors.withoutData_findings` — the findings agree but for what is found along data.
-/

namespace Rejoin

/-- What is known of a branch, without the instructions found along data. -/
def BranchDependents.withoutData (b : BranchDependents) : BranchDependents :=
  { b with data := [] }

/-- What an analysis finds, without the instructions found along data. Where a branch stands, what
it controls and what depends on it is kept. -/
def Dependencies.withoutData (deps : Dependencies) : Dependencies :=
  deps.mapBranches BranchDependents.withoutData id

/-- One instruction is the other one, or the same branch with its targets exchanged. -/
inductive Inst.Mirrors {τ : Type} : Inst τ → Inst τ → Prop
  /-- The instruction stays as it is. -/
  | same (inst : Inst τ) : Mirrors inst inst
  /-- The targets of the branch are exchanged. -/
  | exchanged (inst : Inst τ) (cond : Option Operand) (onTrue onFalse : τ) :
      Mirrors { inst with kind := .branch cond onTrue onFalse }
        { inst with kind := .branch cond onFalse onTrue }

namespace Inst.Mirrors

variable {τ : Type} {inst inst' : Inst τ} (h : inst.Mirrors inst')

include h

/-- Exchanging the arms once more gives the branch back. -/
theorem symm : inst'.Mirrors inst := by
  cases h with
  | same => exact .same inst
  | exchanged inst cond onTrue onFalse => exact .exchanged inst cond onFalse onTrue

theorem isBranch : inst'.isBranch = inst.isBranch := by
  cases h <;> rfl

theorem isTerminator : inst'.isTerminator = inst.isTerminator := by
  cases h <;> rfl

/-- A mirrored instruction is code for the same instruction sets. -/
theorem isSubstantive (isa : Isa) : isa.isSubstantive inst' = isa.isSubstantive inst := by
  cases h <;> rfl

theorem result : inst'.result = inst.result := by
  cases h <;> rfl

/-- The arms of a branch are no operands, so a mirrored instruction reads the same values. -/
theorem uses : inst'.uses = inst.uses := by
  cases h <;> rfl

end Inst.Mirrors

/-- The numbered instructions are the same but for exchanged targets. -/
def MirrorsEntry (entry entry' : InstId × Inst BlockId) : Prop :=
  entry'.1 = entry.1 ∧ entry.2.Mirrors entry'.2

/-- The blocks are the same but for exchanged targets. -/
def Block.Mirrors (block block' : Block) : Prop :=
  block'.label = block.label ∧ List.Forall₂ MirrorsEntry block.insts block'.insts

/-- What ends the blocks is mirrored too. -/
theorem Block.Mirrors.terminator? {block block' : Block} (h : block.Mirrors block') :
    Option.Rel Inst.Mirrors block.terminator? block'.terminator? := by
  have hreverse : List.Forall₂ MirrorsEntry block.insts.reverse block'.insts.reverse :=
    List.rel_reverse h.2
  rw [Block.terminator?, Block.terminator?, ← List.head?_reverse, ← List.head?_reverse]
  generalize block.insts.reverse = backwards at hreverse
  generalize block'.insts.reverse = backwards' at hreverse
  cases hreverse with
  | nil => exact Option.Rel.none
  | cons hentry _ =>
    rw [List.head?_cons, List.head?_cons, Option.map_some, Option.map_some, Option.filter_some,
      Option.filter_some, hentry.2.isTerminator]
    split
    · exact Option.Rel.some hentry.2
    · exact Option.Rel.none

theorem Block.Mirrors.symm {block block' : Block} (h : block.Mirrors block') :
    block'.Mirrors block :=
  ⟨h.1.symm, (h.2.imp fun _ _ hentry => ⟨hentry.1.symm, hentry.2.symm⟩).flip⟩

/-- Every numbered instruction has its mirror image under the same number. -/
private theorem exists_mem_of_mirrors {insts insts' : List (InstId × Inst BlockId)}
    (h : List.Forall₂ MirrorsEntry insts insts') {entry : InstId × Inst BlockId}
    (hentry : entry ∈ insts) : ∃ entry' ∈ insts', MirrorsEntry entry entry' := by
  obtain ⟨i, hi, rfl⟩ := List.getElem_of_mem hentry
  obtain ⟨hlength, hget⟩ := List.forall₂_iff_get.mp h
  have hi' : i < insts'.length := hlength ▸ hi
  exact ⟨insts'[i], List.getElem_mem hi', hget i hi hi'⟩

/-- What a property that does not look at the order of targets says of each instruction is the same
for both rows. -/
theorem map_eq_of_mirrors {insts insts' : List (InstId × Inst BlockId)}
    (h : List.Forall₂ MirrorsEntry insts insts') {p : Inst BlockId → Bool}
    (hp : ∀ inst inst', inst.Mirrors inst' → p inst' = p inst) :
    (insts'.map fun entry => (entry.1, p entry.2)) =
      insts.map fun entry => (entry.1, p entry.2) := by
  induction h with
  | nil => rfl
  | cons hentry _ ih =>
    rw [List.map_cons, List.map_cons, ih, hentry.1, hp _ _ hentry.2]

/-- So the instructions that have such a property are the same. -/
theorem map_fst_filter_of_mirrors {insts insts' : List (InstId × Inst BlockId)}
    (h : List.Forall₂ MirrorsEntry insts insts') {p : Inst BlockId → Bool}
    (hp : ∀ inst inst', inst.Mirrors inst' → p inst' = p inst) :
    (insts'.filter fun entry => p entry.2).map Prod.fst =
      (insts.filter fun entry => p entry.2).map Prod.fst := by
  have hview : ∀ row : List (InstId × Inst BlockId),
      (row.filter fun entry => p entry.2).map Prod.fst =
        ((row.map fun entry => (entry.1, p entry.2)).filter Prod.snd).map Prod.fst := by
    intro row
    rw [List.filter_map, List.map_map]
    rfl
  rw [hview, hview, map_eq_of_mirrors h hp]

namespace Func

variable {f f' : Func} {isa : Isa} {functionId : UInt32} {x y branch : InstId}
  {b block point : BlockId}

/-- The well-formed functions are the same but for exchanged targets. -/
structure Mirrors (f f' : Func) : Prop where
  /-- The first function is well formed. -/
  wellFormed : f.WellFormed
  /-- The second function is well formed. -/
  wellFormed' : f'.WellFormed
  /-- They have the same name. -/
  name : f'.name = f.name
  /-- Their blocks are the same but for exchanged targets. -/
  blocks : List.Forall₂ Block.Mirrors f.blocks f'.blocks

namespace Mirrors

/-- Mirroring goes both ways. -/
theorem symm (h : f.Mirrors f') : f'.Mirrors f where
  wellFormed := h.wellFormed'
  wellFormed' := h.wellFormed
  name := h.name.symm
  blocks := (h.blocks.imp fun _ _ hblock => hblock.symm).flip

variable (h : f.Mirrors f')

include h

/-! ### Instructions -/

theorem insts : List.Forall₂ MirrorsEntry f.insts f'.insts :=
  List.rel_flatMap h.blocks fun _ _ hblock => hblock.2

/-- Every block has its mirror image in the same place. -/
theorem block? {owner : Block} (hb : f.block? b = some owner) :
    ∃ owner', f'.block? b = some owner' ∧ owner.Mirrors owner' := by
  rw [h.wellFormed.consistent.block?_eq_getElem?] at hb
  obtain ⟨hlt, rfl⟩ := List.getElem?_eq_some_iff.mp hb
  obtain ⟨hlength, hget⟩ := List.forall₂_iff_get.mp h.blocks
  have hlt' : b < f'.blocks.length := hlength ▸ hlt
  rw [h.wellFormed'.consistent.block?_eq_getElem?]
  exact ⟨f'.blocks[b], List.getElem?_eq_getElem hlt', hget b hlt hlt'⟩

/-- Every instruction has its mirror image under the same number. -/
theorem inst? {inst : Inst BlockId} (hx : f.inst? x = some inst) :
    ∃ inst', f'.inst? x = some inst' ∧ inst.Mirrors inst' := by
  have hmem := (inst?_eq_some_iff h.wellFormed.consistent).mp hx
  obtain ⟨⟨id, inst'⟩, hmem', rfl, hinst⟩ := exists_mem_of_mirrors h.insts hmem
  exact ⟨inst', (inst?_eq_some_iff h.wellFormed'.consistent).mpr hmem', hinst⟩

theorem isCode (hx : f.IsCode isa x) : f'.IsCode isa x := by
  obtain ⟨inst, hinst, hcode⟩ := hx
  obtain ⟨inst', hinst', hmirrors⟩ := h.inst? hinst
  exact ⟨inst', hinst', hmirrors.isSubstantive isa ▸ hcode⟩

/-- A conditional branch stays one. -/
theorem isCondBranch (hx : f.IsCondBranch x) : f'.IsCondBranch x := by
  obtain ⟨inst, hinst, hbranch⟩ := hx
  obtain ⟨inst', hinst', hmirrors⟩ := h.inst? hinst
  exact ⟨inst', hinst', hmirrors.isBranch ▸ hbranch⟩

/-- What feeds an instruction feeds its mirror image. -/
theorem feeds (hxy : f.Feeds x y) : f'.Feeds x y := by
  obtain ⟨inst, name, reader, hinst, hname, hreader, huse⟩ := hxy
  obtain ⟨inst', hinst', hmirrors⟩ := h.inst? hinst
  obtain ⟨reader', hreader', hmirrors'⟩ := h.inst? hreader
  exact ⟨inst', name, reader', hinst', hmirrors.result ▸ hname, hreader', hmirrors'.uses ▸ huse⟩

/-- Neighbours stay neighbours: code and its order are the same. -/
theorem adjacent (hxy : f.Adjacent isa.isSubstantive x y) : f'.Adjacent isa.isSubstantive x y := by
  obtain ⟨owner, howner, hadjacent⟩ := hxy
  obtain ⟨b, hb⟩ := h.wellFormed.consistent.exists_block?_of_mem howner
  obtain ⟨owner', howner', hmirrors⟩ := h.block? hb
  refine ⟨owner', mem_blocks_of_block? howner', hadjacent.of_map_eq ?_⟩
  exact map_eq_of_mirrors hmirrors.2 fun _ _ hinst => hinst.isSubstantive isa

/-- An instruction and its mirror image are in the same block. -/
theorem parent? (hx : f.parent? x = some b) : f'.parent? x = some b := by
  obtain ⟨owner, howner, hmem⟩ := (parent?_eq_some_iff h.wellFormed.consistent).mp hx
  obtain ⟨owner', howner', hmirrors⟩ := h.block? howner
  obtain ⟨entry, hentry, rfl⟩ := List.mem_map.mp hmem
  obtain ⟨entry', hentry', hid, -⟩ := exists_mem_of_mirrors hmirrors.2 hentry
  refine (parent?_eq_some_iff h.wellFormed'.consistent).mpr ⟨owner', howner', ?_⟩
  exact hid ▸ List.mem_map_of_mem hentry'

/-- Mirrored functions are numbered alike. -/
theorem numbering : Numbering.ofFunc isa functionId f' = Numbering.ofFunc isa functionId f := by
  refine Numbering.ofFunc_eq_of_order ?_
  rw [Numbering.order_ofFunc, Numbering.order_ofFunc]
  exact map_fst_filter_of_mirrors h.insts fun _ _ hinst => hinst.isSubstantive isa

/-- Their branches are found in the same places. -/
theorem branchSites (point? : BlockId → Option BlockId) :
    Rejoin.branchSites f' point? = Rejoin.branchSites f point? := by
  have hsites : ∀ g : Func, g.Consistent → Rejoin.branchSites g point? =
      (g.blocks.mapIdx fun b block =>
        ((block.insts.filter fun entry => entry.2.isBranch).map Prod.fst).map
          fun id => (⟨id, b, point? b⟩ : BranchSite)).flatten := by
    intro g hg
    simp only [Rejoin.branchSites, hg.layout_eq_mapIdx, List.flatMap_def,
      List.mapIdx_eq_zipIdx_map, List.map_map]
    rfl
  rw [hsites f' h.wellFormed'.consistent, hsites f h.wellFormed.consistent]
  refine congrArg List.flatten (mapIdx_eq_of_agrees h.blocks fun b block block' hblock => ?_)
  rw [map_fst_filter_of_mirrors hblock.2 fun _ _ hinst => hinst.isBranch]

/-! ### Control flow -/

theorem length_blocks : f'.blocks.length = f.blocks.length :=
  h.blocks.length_eq.symm

/-- Blocks end with the same instruction, but for exchanged targets. -/
theorem terminator (b : BlockId) :
    Option.Rel Inst.Mirrors ((f.block? b).bind Block.terminator?)
      ((f'.block? b).bind Block.terminator?) := by
  cases hb : f.block? b with
  | none =>
    have hb' : f'.block? b = none := by
      rw [h.wellFormed.consistent.block?_eq_none_iff] at hb
      rwa [h.wellFormed'.consistent.block?_eq_none_iff, h.length_blocks]
    rw [hb']
    exact Option.Rel.none
  | some owner =>
    obtain ⟨owner', hb', hmirrors⟩ := h.block? hb
    rw [hb']
    exact hmirrors.terminator?

/-- Control leads to the same blocks. -/
theorem mem_targets_transfer (b : BlockId) {target : BlockId} :
    target ∈ (f'.transfer b).targets ↔ target ∈ (f.transfer b).targets := by
  have hnext : f'.layoutNext? b = f.layoutNext? b := by
    rw [h.wellFormed'.consistent.layoutNext?_eq, h.wellFormed.consistent.layoutNext?_eq,
      h.length_blocks]
  have hend := h.terminator b
  -- a transfer is read off what ends the block, and off the next block if nothing does
  rw [transfer, transfer, hnext]
  revert hend
  generalize (f.block? b).bind Block.terminator? = last
  generalize (f'.block? b).bind Block.terminator? = last'
  intro hend
  cases hend with
  | none => rfl
  | some hinst =>
    cases hinst with
    | same => rfl
    | exchanged _ cond onTrue onFalse =>
      simp only [Option.map_some, Transfer.targets, List.mem_cons, List.not_mem_nil, or_false]
      exact or_comm

/-- The rows of their control flow are listed under the same blocks. -/
theorem map_fst_transfers : f'.transfers.map Prod.fst = f.transfers.map Prod.fst := by
  rw [h.wellFormed'.consistent.map_fst_transfers, h.wellFormed.consistent.map_fst_transfers,
    h.length_blocks]

/-- Control passes between the same blocks and ends in the same ones. -/
theorem exitGraph : Graph.exitGraph f'.transfers = Graph.exitGraph f.transfers := by
  refine Graph.exitGraph_eq_of_flows h.map_fst_transfers fun x y => ?_
  simp only [Graph.Flows, h.wellFormed'.consistent.mem_transfers_iff,
    h.wellFormed.consistent.mem_transfers_iff, h.length_blocks]
  constructor
  · rintro ⟨_, ⟨hx, rfl⟩, hy⟩
    exact ⟨_, ⟨hx, rfl⟩, (h.mem_targets_transfer x).mp hy⟩
  · rintro ⟨_, ⟨hx, rfl⟩, hy⟩
    exact ⟨_, ⟨hx, rfl⟩, (h.mem_targets_transfer x).mpr hy⟩

theorem point? : (f'.ownSetting isa functionId).point? = (f.ownSetting isa functionId).point? :=
  PostDominators.immediate?_eq_of_exitGraph h.wellFormed.wellListed h.wellFormed'.wellListed
    h.exitGraph

/-! ### Dependence -/

/-- The rules of dependence are the same. -/
theorem dependenceClosed {D : Set InstId} (hD : f.DependenceClosed isa branch block point D) :
    f'.DependenceClosed isa branch block point D where
  controlled := by
    intro b hreach id hparent hcode
    rw [h.exitGraph] at hreach
    -- every premise of a rule is carried back to the first function
    exact hD.controlled b hreach id (h.symm.parent? hparent) (h.symm.isCode hcode)
  data := by
    intro x y hx hfeeds hcode
    refine hD.data x y ?_ (h.symm.feeds hfeeds) (h.symm.isCode hcode)
    exact hx.imp_right fun hx => hx.imp_left fun hx => ⟨h.symm.adjacent hx.1, h.symm.isCode hx.2⟩
  fused := by
    intro hfuses j hj k hadjacent hbranch hne
    exact hD.fused hfuses j hj k (h.symm.adjacent hadjacent) (h.symm.isCondBranch hbranch) hne

/-- So the two searches find the same instructions together. -/
theorem mem_dependentInsts_iff :
    x ∈ f'.dependentInsts isa functionId branch block point ↔
      x ∈ f.dependentInsts isa functionId branch block point := by
  have hclosed : {D | f'.DependenceClosed isa branch block point D} =
      {D | f.DependenceClosed isa branch block point D} :=
    Set.ext fun D => ⟨h.symm.dependenceClosed, h.dependenceClosed⟩
  have hleast : IsLeast {D | f.DependenceClosed isa branch block point D}
      {id | id ∈ f'.dependentInsts isa functionId branch block point} :=
    hclosed ▸ isLeast_dependentInsts h.wellFormed'
  exact Set.ext_iff.mp (hleast.unique (isLeast_dependentInsts h.wellFormed)) x

/-- The instructions under control of a branch are the same. -/
theorem mem_controlled_iff :
    x ∈ (f'.ownSetting isa functionId).controlled block point ↔
      x ∈ (f.ownSetting isa functionId).controlled block point := by
  rw [Func.mem_controlled_iff h.wellFormed'.toLinked, Func.mem_controlled_iff h.wellFormed.toLinked,
    h.exitGraph]
  refine exists_congr fun b => and_congr_right fun _ => and_congr ?_ ?_
  · exact ⟨h.symm.parent?, h.parent?⟩
  · exact ⟨h.symm.isCode, h.isCode⟩

theorem numberOf : (f'.ownSetting isa functionId).numberOf x =
    (f.ownSetting isa functionId).numberOf x := by
  show ((Numbering.ofFunc isa functionId f').number? x).getD 0 =
    ((Numbering.ofFunc isa functionId f).number? x).getD 0
  rw [h.numbering]

/-- What is found for a branch agrees but for what is found along data. -/
theorem withoutData_findingsOf :
    ((f'.ownSetting isa functionId).findingsOf branch block point).withoutData =
      ((f.ownSetting isa functionId).findingsOf branch block point).withoutData := by
  have hcontrol : ((f'.ownSetting isa functionId).findingsOf branch block point).control =
      ((f.ownSetting isa functionId).findingsOf branch block point).control := by
    show (Numbering.ofFunc isa functionId f').collect _ =
      (Numbering.ofFunc isa functionId f).collect _
    rw [h.numbering]
    exact Numbering.collect_eq_of_mem_iff fun id => h.mem_controlled_iff
  have hdependents : ((f'.ownSetting isa functionId).findingsOf branch block point).dependents =
      ((f.ownSetting isa functionId).findingsOf branch block point).dependents := by
    show (Numbering.ofFunc isa functionId f').collect _ =
      (Numbering.ofFunc isa functionId f).collect _
    rw [h.numbering]
    exact Numbering.collect_eq_of_mem_iff fun id => h.mem_dependentInsts_iff
  rw [BranchDependents.withoutData, BranchDependents.withoutData, hcontrol, hdependents]
  simp only [Setting.findingsOf, h.numberOf]

/-- The findings agree but for what is found along data. -/
theorem withoutData_findings :
    (f'.findings isa functionId).withoutData = (f.findings isa functionId).withoutData := by
  have houtcome : ∀ site,
      Sum.map BranchDependents.withoutData id ((f'.ownSetting isa functionId).outcome site) =
        Sum.map BranchDependents.withoutData id ((f.ownSetting isa functionId).outcome site) := by
    intro site
    rw [Setting.outcome, Setting.outcome]
    cases site.point with
    | none => rw [h.numberOf]
    | some point => exact congrArg Sum.inl h.withoutData_findingsOf
  rw [Func.findings, Func.findings, h.name]
  refine Dependencies.mapBranches_ofOutcomes BranchDependents.withoutData id (fun _ => rfl)
    (congrArg Numbering.functionId h.numbering) (congrArg Numbering.size h.numbering) ?_
  rw [h.point?, h.branchSites, List.map_map, List.map_map]
  exact List.map_congr_left fun site _ => houtcome site

end Mirrors

/-! ### Functions made of rows -/

/-- Instructions that are mirrored one by one are numbered alike. -/
private theorem forall₂_numberFrom {insts insts' : List (Inst BlockId)}
    (h : List.Forall₂ Inst.Mirrors insts insts') (n : InstId) :
    List.Forall₂ MirrorsEntry (numberFrom n insts) (numberFrom n insts') := by
  induction h generalizing n with
  | nil => exact List.Forall₂.nil
  | cons hinst _ ih => exact List.Forall₂.cons ⟨rfl, hinst⟩ (ih (n + 1))

/-- Rows that are mirrored one by one are laid out as mirrored blocks. -/
private theorem forall₂_layFrom {rows rows' : List (String × List (Inst BlockId))}
    (h : List.Forall₂ (fun row row' => row'.1 = row.1 ∧ List.Forall₂ Inst.Mirrors row.2 row'.2)
      rows rows') (n : InstId) :
    List.Forall₂ Block.Mirrors (layFrom n rows) (layFrom n rows') := by
  induction h generalizing n with
  | nil => exact List.Forall₂.nil
  | cons hrow _ ih =>
    refine List.Forall₂.cons ⟨hrow.1, forall₂_numberFrom hrow.2 n⟩ ?_
    rw [← hrow.2.length_eq]
    exact ih _

/-- Functions made of rows that are the same but for exchanged targets. -/
theorem mirrors_ofBlocks {rows rows' : List (String × List (Inst BlockId))}
    (hrows : WellFormedRows rows) (hrows' : WellFormedRows rows')
    (h : List.Forall₂ (fun row row' => row'.1 = row.1 ∧ List.Forall₂ Inst.Mirrors row.2 row'.2)
      rows rows') (name : String) : (ofBlocks name rows).Mirrors (ofBlocks name rows') where
  wellFormed := wellFormed_ofBlocks hrows name
  wellFormed' := wellFormed_ofBlocks hrows' name
  name := by rw [name_ofBlocks, name_ofBlocks]
  blocks := by
    rw [blocks_ofBlocks, blocks_ofBlocks]
    exact forall₂_layFrom h 0

end Func

/-! ## Listings with targets exchanged -/

namespace Listing

variable {labels : List String}

/-- One instruction of a listing is the other one, or the same branch with its targets exchanged. -/
inductive InstDef.Mirrors {τ : Type} : InstDef τ → InstDef τ → Prop
  /-- The instruction stays as it is. -/
  | same (inst : InstDef τ) : Mirrors inst inst
  /-- The targets of the branch are exchanged. -/
  | exchanged (cond : Option Operand) (onTrue onFalse : τ) :
      Mirrors (.branch cond onTrue onFalse) (.branch cond onFalse onTrue)

/-- The targets of some branches of a block are exchanged. -/
def BlockDef.Mirrors (block block' : BlockDef) : Prop :=
  block'.label = block.label ∧
    List.Forall₂ (fun inst inst' => inst'.span = inst.span ∧ inst.val.Mirrors inst'.val)
      block.insts block'.insts

/-- The targets of some branches of a function are exchanged. -/
def FuncDef.Mirrors (func func' : FuncDef) : Prop :=
  func'.name = func.name ∧ List.Forall₂ BlockDef.Mirrors func.blocks func'.blocks

/-- The targets of some branches of a listing are exchanged. -/
def Tree.Mirrors (listing listing' : Tree) : Prop :=
  List.Forall₂ (fun func func' => func'.span = func.span ∧ FuncDef.Mirrors func.val func'.val)
    listing.functions listing'.functions

/-- Exchanged targets are resolved like the targets. -/
theorem buildM_of_mirrors {inst inst' : LabelInst} {lowered : Inst BlockId}
    (h : inst.Mirrors inst') (hlowered : inst.buildM (resolve labels) = .ok lowered) :
    ∃ lowered', inst'.buildM (resolve labels) = .ok lowered' ∧ lowered.Mirrors lowered' := by
  cases h with
  | same => exact ⟨lowered, hlowered, .same lowered⟩
  | exchanged cond onTrue onFalse =>
    obtain ⟨t, ht, hlowered⟩ := bind_eq_ok_iff.mp hlowered
    obtain ⟨e, he, hlowered⟩ := bind_eq_ok_iff.mp hlowered
    obtain rfl := Except.ok.inj hlowered
    refine ⟨.branch cond e t, ?_, .exchanged (.branch cond t e) cond t e⟩
    exact bind_eq_ok_iff.mpr ⟨e, he, bind_eq_ok_iff.mpr ⟨t, ht, rfl⟩⟩

/-- A mirrored row of instructions is lowered to a mirrored row. -/
theorem lowerInsts_of_mirrors {insts insts' : List (Spanned LabelInst)}
    {lowered : List (Inst BlockId)}
    (h : List.Forall₂ (fun inst inst' => inst'.span = inst.span ∧ inst.val.Mirrors inst'.val)
      insts insts') (hlowered : lowerInsts labels insts = .ok lowered) :
    ∃ lowered', lowerInsts labels insts' = .ok lowered' ∧
      List.Forall₂ Inst.Mirrors lowered lowered' := by
  induction h generalizing lowered with
  | nil =>
    obtain rfl := Except.ok.inj hlowered
    exact ⟨[], rfl, List.Forall₂.nil⟩
  | @cons inst inst' rest rest' hinst hrest ih =>
    obtain ⟨first, others, hfirst, hlast, hothers, rfl⟩ := lowerInsts_cons_eq_ok_iff.mp hlowered
    obtain ⟨first', hfirst', hmirrors⟩ := buildM_of_mirrors hinst.2 hfirst
    obtain ⟨others', hothers', hsame⟩ := ih hothers
    refine ⟨first' :: others', lowerInsts_cons_eq_ok_iff.mpr
      ⟨first', others', hfirst', fun hend => ?_, hothers', rfl⟩, List.Forall₂.cons hmirrors hsame⟩
    obtain rfl := hlast (hmirrors.isTerminator ▸ hend)
    cases hrest
    rfl

/-- A mirrored function of a listing is lowered to a mirrored function. -/
theorem FuncDef.Mirrors.lower {func func' : FuncDef} {f : Func} (h : FuncDef.Mirrors func func')
    (hf : func.lower = .ok f) : ∃ f', func'.lower = .ok f' ∧ f.Mirrors f' := by
  obtain ⟨rows, rows', rfl, hf', hrows, hrows', hmirrors⟩ := FuncDef.lower_of_forall₂
    (fun _ _ hblock => hblock.1) (fun _ _ _ _ hblock => lowerInsts_of_mirrors hblock.2) h.1 h.2 hf
  exact ⟨_, hf', Func.mirrors_ofBlocks hrows hrows' hmirrors _⟩

/-- A listing with targets exchanged is lowered to functions with targets exchanged. -/
theorem Tree.Mirrors.lower {listing listing' : Tree} {program : Program}
    (h : Tree.Mirrors listing listing') (hprogram : listing.lower = .ok program) :
    ∃ program', listing'.lower = .ok program' ∧
      List.Forall₂ Func.Mirrors program.functions program'.functions :=
  Tree.lower_of_forall₂ (fun _ _ hfunc => hfunc.2.1) (fun _ _ _ hfunc hf => hfunc.2.lower hf) h
    hprogram

end Listing

/-- Exchanging the targets of any conditional branches of a listing that can be lowered gives one
that can be lowered too. The analysis of both succeeds, and finds the same but for the instructions
found along data: the same numbers, blocks, points, controlled instructions and dependents of
branches, the same skipped branches and the same totals for each function. So the reports are the
same text. -/
theorem analyse_of_mirrors {listing listing' : Listing.Tree} {program : Program}
    (hmirrors : Listing.Tree.Mirrors listing listing') (h : listing.lower = .ok program)
    (isa : Isa) :
    ∃ program' results results', listing'.lower = .ok program' ∧
      program.analyse isa = .ok results ∧ program'.analyse isa = .ok results' ∧
      results'.map Dependencies.withoutData = results.map Dependencies.withoutData ∧
      renderReport (results'.flatMap Dependencies.records) =
        renderReport (results.flatMap Dependencies.records) := by
  obtain ⟨program', h', hfunctions⟩ := hmirrors.lower h
  have hresults := Program.analyse_eq_ok (Listing.Tree.wellFormed_of_lower h) isa
  have hresults' := Program.analyse_eq_ok (Listing.Tree.wellFormed_of_lower h') isa
  have hmap : ∀ functions : List Func,
      (functions.mapIdx fun i f => f.findings isa (functionId i)).map Dependencies.withoutData =
        functions.mapIdx fun i f => (f.findings isa (functionId i)).withoutData := by
    intro functions
    simp only [List.mapIdx_eq_zipIdx_map, List.map_map]
    rfl
  have hsame :
      (program'.functions.mapIdx fun i f => f.findings isa (functionId i)).map
        Dependencies.withoutData =
      (program.functions.mapIdx fun i f => f.findings isa (functionId i)).map
        Dependencies.withoutData := by
    rw [hmap, hmap]
    exact mapIdx_eq_of_agrees hfunctions fun i f f' hff' => hff'.withoutData_findings
  -- a record lists dependents, however they were found
  have hrecords : ∀ results : List Dependencies, results.flatMap Dependencies.records =
      (results.map Dependencies.withoutData).flatMap Dependencies.records := by
    intro results
    rw [List.flatMap_map]
    refine List.flatMap_congr fun deps _ => ?_
    simp only [Dependencies.records, Dependencies.withoutData, Dependencies.mapBranches,
      List.map_map]
    rfl
  refine ⟨program', _, _, h', hresults, hresults', hsame, ?_⟩
  rw [hrecords, hsame, ← hrecords]

/-- A listing whose first branch has the given targets. A compare in one of its blocks reads what
the other block defines. -/
def armsListing (onTrue onFalse : String) : Listing.Tree :=
  let at0 {α : Type} (val : α) : Spanned α := ⟨val, ⟨0, 0⟩⟩
  ⟨[at0 ⟨at0 "@f",
    [⟨at0 "entry", [at0 (.branch (some (.value "%c")) (at0 onTrue) (at0 onFalse))]⟩,
     ⟨at0 "then", [at0 (.op "mov" [.int 1] (some "%x")), at0 (.jump (at0 "done"))]⟩,
     ⟨at0 "else", [at0 (.op "cmp" [.value "%x", .int 0] none),
       at0 (.branch none (at0 "join") (at0 "done"))]⟩,
     ⟨at0 "join", []⟩,
     ⟨at0 "done", [at0 (.ret none)]⟩]⟩]⟩

/-- What is found along data differs between the two orders of targets, since the branch that is
fused with the compare is worked through before the compare is found in one of them. -/
theorem analyse_of_mirrors_armsListing :
    Listing.Tree.Mirrors (armsListing "then" "else") (armsListing "else" "then") ∧
    ∃ program program' results results', (armsListing "then" "else").lower = .ok program ∧
      (armsListing "else" "then").lower = .ok program' ∧ program.analyse .x86 = .ok results ∧
      program'.analyse .x86 = .ok results' ∧
      (results.map fun deps => deps.branches.map BranchDependents.data) = [[[3, 4], []]] ∧
      (results'.map fun deps => deps.branches.map BranchDependents.data) = [[[3], []]] ∧
      results'.map Dependencies.withoutData = results.map Dependencies.withoutData ∧
      renderReport (results'.flatMap Dependencies.records) =
        renderReport (results.flatMap Dependencies.records) := by
  have hmirrors : Listing.Tree.Mirrors (armsListing "then" "else") (armsListing "else" "then") := by
    have hsame : ∀ block : Listing.BlockDef, block.Mirrors block := fun block =>
      ⟨rfl, List.forall₂_same.mpr fun inst _ => ⟨rfl, .same inst.val⟩⟩
    refine .cons ⟨rfl, rfl, .cons ⟨rfl, ?_⟩ (List.forall₂_same.mpr fun block _ => hsame block)⟩ .nil
    exact .cons ⟨rfl, .exchanged _ _ _⟩ .nil
  obtain ⟨program, h⟩ : ∃ program, (armsListing "then" "else").lower = .ok program := ⟨_, rfl⟩
  obtain ⟨program', results, results', h', hresults, hresults', hsame, hreport⟩ :=
    analyse_of_mirrors hmirrors h .x86
  have hdata : ∀ {listing : Listing.Tree} {program : Program} {results : List Dependencies}
      {data : List (List (List Nat))}, listing.lower = .ok program →
      program.analyse .x86 = .ok results →
      (listing.lower.toOption.bind fun program => (program.analyse .x86).toOption.map fun results =>
        results.map fun deps => deps.branches.map BranchDependents.data) = some data →
      (results.map fun deps => deps.branches.map BranchDependents.data) = data := by
    intro listing program results data hlower hanalyse hrun
    rw [hlower] at hrun
    simpa [Except.toOption, hanalyse] using hrun
  exact ⟨hmirrors, program, program', results, results', h, h', hresults, hresults',
    hdata h hresults (by decide +kernel), hdata h' hresults' (by decide +kernel), hsame, hreport⟩

end Rejoin
