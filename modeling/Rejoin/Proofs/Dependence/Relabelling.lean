import Rejoin.Proofs.Dependence.Analysis

/-!
# Labels are not analysed

Blocks are numbered, and the analysis knows them by their numbers. So a function whose blocks get
other labels has the same instructions, control flow and neighbours, and the analysis finds the same
in it: `Func.findings_relabel`.
-/

namespace Rejoin

/-- The block with another label. -/
def Block.relabel (label : String) (block : Block) : Block :=
  { block with label }

/-- The function with other labels, given to its blocks by number. -/
def Func.relabel (label : BlockId → String) (f : Func) : Func :=
  { f with layout := f.layout.map fun entry => (entry.1, entry.2.relabel (label entry.1)) }

/-- Changing the values of a table changes what is looked up. -/
private theorem lookup_map_value {α β : Type} (change : Nat → α → β) (key : Nat)
    (entries : List (Nat × α)) :
    (entries.map fun entry => (entry.1, change entry.1 entry.2)).lookup key =
      (entries.lookup key).map (change key) := by
  induction entries with
  | nil => rfl
  | cons entry rest ih =>
    rw [List.map_cons, List.lookup_cons, List.lookup_cons, ih]
    by_cases hkey : key = entry.1
    · subst hkey
      simp
    · rw [beq_false_of_ne hkey]

namespace Func

variable (label : BlockId → String) (f : Func)

/-- The blocks are the same but for their labels. -/
theorem blocks_relabel :
    (f.relabel label).blocks = f.layout.map fun entry => entry.2.relabel (label entry.1) := by
  rw [blocks, relabel, List.map_map]
  rfl

@[simp]
theorem insts_relabel : (f.relabel label).insts = f.insts := by
  rw [insts_eq_flatMap_layout, insts_eq_flatMap_layout, relabel, List.flatMap_map]
  rfl

/-- Rows keep their instructions and get the labels of their places. -/
theorem Consistent.rows_relabel {f : Func} (hf : f.Consistent) :
    (f.relabel label).rows = f.rows.mapIdx fun b row => (label b, row.2) := by
  rw [rows, blocks_relabel, hf.layout_eq_mapIdx]
  refine List.ext_getElem? fun b => ?_
  simp only [rows, List.getElem?_map, List.getElem?_mapIdx, Option.map_map]
  rfl

/-- Labels may be changed before a function is made of rows or after it. -/
theorem relabel_ofBlocks (name : String) (blocks : List (String × List (Inst BlockId))) :
    (ofBlocks name blocks).relabel label =
      ofBlocks name (blocks.mapIdx fun b row => (label b, row.2)) := by
  have hlay (b : BlockId) (n : InstId) :
      ((keyFrom b (layFrom n blocks)).map fun entry =>
        (entry.1, entry.2.relabel (label entry.1))) =
      keyFrom b (layFrom n (blocks.mapIdx fun i row => (label (b + i), row.2))) := by
    induction blocks generalizing b n with
    | nil => rfl
    | cons block rest ih =>
      rw [layFrom, keyFrom, List.map_cons, ih, List.mapIdx_cons, layFrom, keyFrom]
      simp only [Nat.add_assoc, Nat.add_comm 1]
      rfl
  have hinsts : (blocks.mapIdx fun b row => (label b, row.2)).flatMap Prod.snd =
      blocks.flatMap Prod.snd := by
    rw [List.flatMap_def, List.flatMap_def]
    refine congrArg List.flatten (List.ext_getElem? fun i => ?_)
    simp only [List.getElem?_map, List.getElem?_mapIdx, Option.map_map]
    rfl
  have hkeyed := hlay 0 0
  simp only [Nat.zero_add] at hkeyed
  rw [ofBlocks_eq, ofBlocks_eq, hinsts, List.length_mapIdx, ← hkeyed, relabel]
  -- the table of owners names blocks by number
  simp only [parentsOf, List.flatMap_map]
  rfl

/-- A block is found as before, with its new label. -/
@[simp]
theorem block?_relabel (b : BlockId) :
    (f.relabel label).block? b = (f.block? b).map (Block.relabel (label b)) :=
  lookup_map_value (fun b (block : Block) => block.relabel (label b)) b f.layout

@[simp]
theorem parent?_relabel (id : InstId) : (f.relabel label).parent? id = f.parent? id :=
  rfl

/-- What is asked of the instructions of the block that owns an instruction has the same answer. -/
theorem bind_owner?_relabel {α : Type} (ask : List (InstId × Inst BlockId) → Option α)
    (id : InstId) :
    (((f.relabel label).owner? id).bind fun block => ask block.insts) =
      (f.owner? id).bind fun block => ask block.insts := by
  rw [owner?, owner?, parent?_relabel]
  cases f.parent? id with
  | none => rfl
  | some b =>
    rw [Option.bind_some, Option.bind_some, block?_relabel]
    cases f.block? b with
    | none => rfl
    | some block => rfl

@[simp]
theorem inst?_relabel : (f.relabel label).inst? = f.inst? := by
  funext id
  exact f.bind_owner?_relabel label (fun insts => insts.lookup id) id

/-- Its neighbours are the same. -/
@[simp]
theorem next?_relabel : (f.relabel label).next? = f.next? := by
  funext id p
  exact f.bind_owner?_relabel label (findAfter id p) id

@[simp]
theorem prev?_relabel : (f.relabel label).prev? = f.prev? := by
  funext id p
  exact f.bind_owner?_relabel label (fun insts => findAfter id p insts.reverse) id

/-- The layout has the same order. -/
@[simp]
theorem layoutNext?_relabel (b : BlockId) : (f.relabel label).layoutNext? b = f.layoutNext? b := by
  have hkeys : ((·.1 != b) ∘ fun entry : BlockId × Block =>
      (entry.1, entry.2.relabel (label entry.1))) = (·.1 != b) := rfl
  rw [layoutNext?, layoutNext?, relabel, List.dropWhile_map, hkeys]
  cases f.layout.dropWhile (·.1 != b) with
  | nil => rfl
  | cons entry later => simp [Function.comp_def]

/-- Control leaves a block as before. -/
@[simp]
theorem transfer_relabel (b : BlockId) : (f.relabel label).transfer b = f.transfer b := by
  have hend : ((f.relabel label).block? b).bind Block.terminator? =
      (f.block? b).bind Block.terminator? := by
    rw [block?_relabel]
    cases f.block? b <;> rfl
  rw [transfer, transfer, hend, layoutNext?_relabel]

@[simp]
theorem transfers_relabel : (f.relabel label).transfers = f.transfers := by
  simp only [transfers, transfer_relabel]
  rw [relabel, List.map_map]
  rfl

/-- Branches are found in the same places. -/
theorem branchSites_relabel (point? : BlockId → Option BlockId) :
    branchSites (f.relabel label) point? = branchSites f point? := by
  rw [branchSites, branchSites, relabel, List.flatMap_map]
  rfl

/-- Their regions are the same. -/
theorem ofBranch_relabel (g : Graph) (block point : BlockId) :
    Region.ofBranch g (f.relabel label) block point = Region.ofBranch g f block point := by
  rw [Region.ofBranch, Region.ofBranch, Region.mk.injEq]
  refine ⟨rfl, List.flatMap_congr fun b _ => ?_⟩
  rw [block?_relabel]
  cases f.block? b <;> rfl

section Setting

variable (isa : Isa) (functionId : UInt32)

/-- Numbers, consumers and control flow are the same. -/
theorem ownSetting_relabel :
    (f.relabel label).ownSetting isa functionId =
      { f.ownSetting isa functionId with func := f.relabel label } := by
  have hconsumers : DefUse.ofFunc (f.relabel label) = DefUse.ofFunc f := by
    simp only [DefUse.ofFunc, insts_relabel]
  have hnumbering : Numbering.ofFunc isa functionId (f.relabel label) =
      Numbering.ofFunc isa functionId f := by
    rw [Numbering.ofFunc, Numbering.ofFunc, insts_relabel]
  simp only [ownSetting, setting, hconsumers, hnumbering, transfers_relabel]

/-- Each step of the search along data finds the same. -/
theorem found_relabel :
    ((f.relabel label).ownSetting isa functionId).found =
      (f.ownSetting isa functionId).found := by
  have hfused (id : InstId) : ((f.relabel label).ownSetting isa functionId).fusedBranch? id =
      (f.ownSetting isa functionId).fusedBranch? id := by
    rw [fusedBranch?_ownSetting, fusedBranch?_ownSetting, next?_relabel]
    simp only [ownSetting_relabel, DataFlow.isBranch, inst?_relabel]
    rfl
  funext processed id
  simp only [DataFlow.found, hfused]
  rw [ownSetting_relabel]
  rfl

/-- And so is what is found for each of them. -/
theorem findingsOf_relabel (inst : InstId) (block point : BlockId) :
    ((f.relabel label).ownSetting isa functionId).findingsOf inst block point =
      (f.ownSetting isa functionId).findingsOf inst block point := by
  have hcontrolled : ((f.relabel label).ownSetting isa functionId).controlled block point =
      (f.ownSetting isa functionId).controlled block point := by
    simp only [ownSetting_relabel, Setting.controlled, ofBranch_relabel, inst?_relabel]
    rfl
  have hseeds (controlled : List InstId) :
      ((f.relabel label).ownSetting isa functionId).seeds inst controlled =
        (f.ownSetting isa functionId).seeds inst controlled := by
    simp only [ownSetting_relabel, Setting.seeds, prev?_relabel]
    rfl
  have hnumbering : ((f.relabel label).ownSetting isa functionId).numbering =
      (f.ownSetting isa functionId).numbering := by
    rw [ownSetting_relabel]
  -- the search starts from the same seeds, takes the same steps and has the same bound
  have hclosure := DataFlow.closure_congr (f.found_relabel label isa functionId)
    (congrArg (·.numbers.length) hnumbering)
  simp only [Setting.findingsOf, Setting.numberOf, hcontrolled, hseeds, hclosure, hnumbering]

/-- What is found in a function does not depend on its labels. -/
theorem findings_relabel :
    (f.relabel label).findings isa functionId = f.findings isa functionId := by
  have hsetting := f.ownSetting_relabel label isa functionId
  have houtcome : ((f.relabel label).ownSetting isa functionId).outcome =
      (f.ownSetting isa functionId).outcome := by
    funext site
    rw [Setting.outcome, Setting.outcome]
    cases site.point with
    | none =>
      rw [hsetting]
      rfl
    | some point => simp only [findingsOf_relabel]
  rw [findings, findings, houtcome]
  simp only [branchSites_relabel, hsetting]
  rfl

end Setting

end Func

end Rejoin
