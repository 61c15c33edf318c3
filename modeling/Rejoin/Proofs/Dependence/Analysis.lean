import Rejoin.Proofs.Dependence.Closure
import Rejoin.Proofs.Dependence.Region
import Rejoin.Proofs.Machine.WellFormed
import Rejoin.Proofs.Session

/-!
# The analysis of linked functions

Every conditional branch and every instruction that a branch controls is substantive, so in a
linked function all of them have numbers and no part of the analysis fails. What it finds is
`Func.findings`, one outcome for each branch, and `Program.analyse_eq_ok` gives the findings of a
whole program.
-/

namespace Rejoin

namespace Setting

/-- The number of an instruction, where it has one. -/
def numberOf (s : Setting) (id : InstId) : Nat :=
  (s.numbering.number? id).getD 0

/-- The dependents of a branch that reconverges at `point`, where all numbers exist. -/
def findingsOf (s : Setting) (inst : InstId) (block point : BlockId) : BranchDependents :=
  let controlled := s.controlled block point
  let found := s.closure (s.seeds inst controlled)
  { branch := s.numberOf inst, inst, block, point
    control := s.numbering.collect controlled
    data := s.numbering.collect found
    dependents := s.numbering.collect (controlled ++ found) }

/-- What becomes of a branch, where all numbers exist. -/
def outcome (s : Setting) (site : BranchSite) : BranchDependents ⊕ SkippedBranch :=
  match site.point with
  | some point => .inl (s.findingsOf site.inst site.block point)
  | none => .inr { branch := s.numberOf site.inst, inst := site.inst, block := site.block }

variable {s : Setting} {id : InstId}

theorem number_eq_ok (h : s.isNumbered id = true) : s.number id = .ok (s.numberOf id) := by
  obtain ⟨n, hn⟩ := Option.isSome_iff_exists.mp h
  rw [number, numberOf, hn]
  rfl

/-- A branch is analysed without an error if it and what it controls have numbers. -/
theorem analyseSite_eq_ok {site : BranchSite} (hsite : s.isNumbered site.inst = true)
    (hcontrolled : ∀ point, ∀ id ∈ s.controlled site.block point, s.isNumbered id = true) :
    s.analyseSite site = .ok (s.outcome site) := by
  rw [analyseSite, outcome]
  cases site.point with
  | none =>
    rw [number_eq_ok hsite]
    rfl
  | some point =>
    have hnumbers : (s.controlled site.block point).mapM s.number =
        .ok ((s.controlled site.block point).map s.numberOf) :=
      mapM_eq_ok_map fun id hid => number_eq_ok (hcontrolled point id hid)
    -- the numbers of the controlled instructions are only checked, not kept
    simp only [dependentsOf, number_eq_ok hsite, hnumbers]
    rfl

end Setting

/-- The result of an analysis whose branches have the given outcomes. -/
def Dependencies.ofOutcomes (numbering : Numbering) (name : String)
    (outcomes : List (BranchDependents ⊕ SkippedBranch)) : Dependencies :=
  let branches := outcomes.filterMap Sum.getLeft?
  let skipped := outcomes.filterMap Sum.getRight?
  let dependent := Setting.countDependent numbering.size branches
  { functionId := numbering.functionId
    name, branches, skipped
    summary :=
      { instructions := numbering.size
        branches := branches.length
        skipped := skipped.length
        dependent
        independent := numbering.size - dependent } }

/-- What an analysis finds, with something changed in what it says of each branch. -/
def Dependencies.mapBranches (onAnalysed : BranchDependents → BranchDependents)
    (onSkipped : SkippedBranch → SkippedBranch) (deps : Dependencies) : Dependencies :=
  { deps with
    branches := deps.branches.map onAnalysed
    skipped := deps.skipped.map onSkipped }

/-- Changing the outcomes before they are told apart is changing them afterwards. -/
private theorem map_filterMap_eq {α β γ : Type} {f : α ⊕ β → α ⊕ β} {g : γ → γ}
    {side? : α ⊕ β → Option γ} (h : ∀ side, (side? side).map g = side? (f side))
    (sides : List (α ⊕ β)) :
    (sides.filterMap side?).map g = (sides.map f).filterMap side? := by
  rw [List.map_filterMap, List.filterMap_map]
  exact List.filterMap_congr fun side _ => h side

/-- Changing what is said of branches keeps results equal if it makes their outcomes equal, and the
dependents stay as they are. -/
theorem Dependencies.mapBranches_ofOutcomes (onAnalysed : BranchDependents → BranchDependents)
    (onSkipped : SkippedBranch → SkippedBranch)
    (hdependents : ∀ b, (onAnalysed b).dependents = b.dependents)
    {numbering numbering' : Numbering} {name : String}
    {outcomes outcomes' : List (BranchDependents ⊕ SkippedBranch)}
    (hid : numbering'.functionId = numbering.functionId) (hsize : numbering'.size = numbering.size)
    (h : outcomes'.map (Sum.map onAnalysed onSkipped) =
      outcomes.map (Sum.map onAnalysed onSkipped)) :
    (ofOutcomes numbering' name outcomes').mapBranches onAnalysed onSkipped =
      (ofOutcomes numbering name outcomes).mapBranches onAnalysed onSkipped := by
  have hbranches : (outcomes'.filterMap Sum.getLeft?).map onAnalysed =
      (outcomes.filterMap Sum.getLeft?).map onAnalysed := by
    have hleft : ∀ side : BranchDependents ⊕ SkippedBranch,
        side.getLeft?.map onAnalysed = (Sum.map onAnalysed onSkipped side).getLeft? := by
      intro side
      cases side <;> rfl
    rw [map_filterMap_eq hleft, map_filterMap_eq hleft, h]
  have hskipped : (outcomes'.filterMap Sum.getRight?).map onSkipped =
      (outcomes.filterMap Sum.getRight?).map onSkipped := by
    have hright : ∀ side : BranchDependents ⊕ SkippedBranch,
        side.getRight?.map onSkipped = (Sum.map onAnalysed onSkipped side).getRight? := by
      intro side
      cases side <;> rfl
    rw [map_filterMap_eq hright, map_filterMap_eq hright, h]
  have hbranchCount : (outcomes'.filterMap Sum.getLeft?).length =
      (outcomes.filterMap Sum.getLeft?).length := by
    simpa using congrArg List.length hbranches
  have hskippedCount : (outcomes'.filterMap Sum.getRight?).length =
      (outcomes.filterMap Sum.getRight?).length := by
    simpa using congrArg List.length hskipped
  -- the count of dependents looks at nothing else of a branch
  have hcount : ∀ (size : Nat) (branches : List BranchDependents),
      Setting.countDependent size branches =
        Setting.countDependent size (branches.map onAnalysed) := by
    intro size branches
    simp only [Setting.countDependent, List.any_map, Function.comp_def, hdependents]
  have hdependent : Setting.countDependent numbering.size (outcomes'.filterMap Sum.getLeft?) =
      Setting.countDependent numbering.size (outcomes.filterMap Sum.getLeft?) := by
    rw [hcount, hbranches, ← hcount]
  simp only [ofOutcomes, mapBranches, hbranches, hskipped, hbranchCount, hskippedCount,
    hdependent, hsize, hid]

/-- Outcomes are told apart by their sides only. -/
private theorem filterMap_eq_of_sides {α β γ : Type} {f : α ⊕ β → Option γ} (g : α ⊕ β → Option γ)
    (hleft : ∀ a, f (.inl a) = g (.inl a)) (hright : ∀ b, f (.inr b) = g (.inr b))
    (sides : List (α ⊕ β)) : sides.filterMap f = sides.filterMap g := by
  refine List.filterMap_congr fun side _ => ?_
  cases side with
  | inl a => exact hleft a
  | inr b => exact hright b

/-- The analysis succeeds if it does so at every branch. -/
theorem Dependencies.analyse_eq_ok {s : Setting}
    (h : ∀ site ∈ branchSites s.func s.point?, s.analyseSite site = .ok (s.outcome site)) :
    Dependencies.analyse s = .ok (ofOutcomes s.numbering s.func.name
      ((branchSites s.func s.point?).map s.outcome)) := by
  rw [Dependencies.analyse, mapM_eq_ok_map h, ofOutcomes]
  dsimp only [bind, Except.bind, pure, Except.pure]
  -- what is left is that the selections agree on either side
  rw [filterMap_eq_of_sides Sum.getLeft?, filterMap_eq_of_sides Sum.getRight?]
  all_goals intro _; rfl

/-- A conditional branch ends its block, so it is substantive. -/
theorem Isa.isSubstantive_of_isBranch {isa : Isa} {inst : Inst BlockId}
    (h : inst.isBranch = true) : isa.isSubstantive inst = true := by
  obtain ⟨opcode, operands, result, kind⟩ := inst
  cases kind with
  | branch => rfl
  | op | jump | ret => cases h

namespace Func

variable {f : Func} {isa : Isa} {functionId : UInt32} {id : InstId}

/-- The instruction is substantive. -/
def IsCode (f : Func) (isa : Isa) (id : InstId) : Prop :=
  ∃ inst, f.inst? id = some inst ∧ isa.isSubstantive inst = true

/-- The instruction is a conditional branch. -/
def IsCondBranch (f : Func) (id : InstId) : Prop :=
  ∃ inst, f.inst? id = some inst ∧ inst.isBranch = true

/-- A conditional branch is code for every instruction set. -/
theorem IsCondBranch.isCode (h : f.IsCondBranch id) : f.IsCode isa id := by
  obtain ⟨inst, hinst, hbranch⟩ := h
  exact ⟨inst, hinst, Isa.isSubstantive_of_isBranch hbranch⟩

/-- Conditional branches are numbered, by whichever instruction set. -/
theorem IsCondBranch.isSome_number? (h : f.IsCondBranch id) :
    ((Numbering.ofFunc isa functionId f).number? id).isSome = true := by
  obtain ⟨inst, hinst, hbranch⟩ := h
  exact ((Numbering.agrees_ofFunc isa functionId f).isSome_number?_iff id).mpr
    (Numbering.mem_order_ofFunc_iff.mpr
      ⟨inst, mem_insts_of_inst? hinst, Isa.isSubstantive_of_isBranch hbranch⟩)

end Func

/-- An instruction is fused with the conditional branch that is the next code after it. -/
theorem DataFlow.fusedBranch?_eq_some_iff {flow : DataFlow} {x k : InstId}
    (hbranch : ∀ k, flow.func.IsCondBranch k → flow.isNumbered k = true) :
    flow.fusedBranch? x = some k ↔ flow.isa.fuses = true ∧ flow.func.IsCondBranch k ∧
      flow.func.next? x flow.isa.isSubstantive = some k := by
  have hisBranch : flow.isBranch k = true ↔ flow.func.IsCondBranch k := by
    rw [isBranch, Option.any_eq_true]
    rfl
  rw [fusedBranch?]
  cases flow.isa.fuses with
  | false => simp
  | true =>
    rw [if_pos rfl, Option.filter_eq_some_iff, Bool.and_eq_true, hisBranch]
    constructor
    · rintro ⟨hnext, hk, -⟩
      exact ⟨rfl, hk, hnext⟩
    · rintro ⟨-, hk, hnext⟩
      exact ⟨hnext, hk, hbranch k hk⟩

namespace Func

variable {f : Func} {isa : Isa} {functionId : UInt32} {id branch x : InstId}
  {block point : BlockId}

/-- The sites of branches are the conditional branches with the blocks that own them. -/
theorem mem_branchSites_iff_isCondBranch (hf : f.Consistent)
    {point? : BlockId → Option BlockId} {site : BranchSite} :
    site ∈ branchSites f point? ↔ site.point = point? site.block ∧
      f.parent? site.inst = some site.block ∧ f.IsCondBranch site.inst := by
  rw [mem_branchSites_iff hf, parent?_eq_some_iff hf]
  refine and_congr_right fun _ => ?_
  simp only [IsCondBranch, inst?_eq_some_iff hf]
  constructor
  · rintro ⟨block, hblock, inst, hmem, hbranch⟩
    refine ⟨⟨block, hblock, List.mem_map_of_mem hmem⟩, inst, ?_, hbranch⟩
    exact mem_insts_iff.mpr ⟨block, mem_blocks_of_block? hblock, hmem⟩
  · rintro ⟨⟨block, hblock, hid⟩, inst, hinst, hbranch⟩
    obtain ⟨⟨_, other⟩, hmem, hid⟩ := List.mem_map.mp hid
    obtain rfl := hid
    have hother : (site.inst, other) ∈ f.insts :=
      mem_insts_iff.mpr ⟨block, mem_blocks_of_block? hblock, hmem⟩
    have hinst' := (inst?_eq_some_iff hf).mpr hinst
    rw [(inst?_eq_some_iff hf).mpr hother] at hinst'
    obtain rfl := Option.some.inj hinst'
    exact ⟨block, hblock, other, hmem, hbranch⟩

/-- The setting in which the branches of a well-formed function are analysed. -/
def ownSetting (f : Func) (isa : Isa) (functionId : UInt32) : Setting :=
  f.setting isa functionId (Graph.ofBlocks f.transfers)

/-- The branch that an instruction is fused with, in a setting of the function's own. -/
theorem fusedBranch?_ownSetting (f : Func) (isa : Isa) (functionId : UInt32) (x : InstId) :
    (f.ownSetting isa functionId).fusedBranch? x =
      if isa.fuses then
        (f.next? x isa.isSubstantive).filter fun next =>
          (f.ownSetting isa functionId).isBranch next &&
            (f.ownSetting isa functionId).isNumbered next
      else none :=
  rfl

/-- What the analysis finds in a well-formed function. -/
def findings (f : Func) (isa : Isa) (functionId : UInt32) : Dependencies :=
  let s := f.ownSetting isa functionId
  Dependencies.ofOutcomes s.numbering f.name ((branchSites f s.point?).map s.outcome)

/-- Findings are marked with the identifier of their function. -/
@[simp]
theorem functionId_findings : (f.findings isa functionId).functionId = functionId :=
  Numbering.functionId_ofFunc isa functionId f

section Linked

variable (hf : f.Linked)

include hf

/-- In such a setting exactly code is numbered. -/
theorem isNumbered_ownSetting_iff :
    (f.ownSetting isa functionId).isNumbered id = true ↔ f.IsCode isa id := by
  rw [DataFlow.isNumbered, Option.isSome_iff_exists]
  exact Numbering.exists_number?_iff hf.consistent

/-- The instructions a branch controls are the substantive ones of the blocks that are entered
before its reconvergence point. -/
theorem mem_controlled_iff :
    id ∈ (f.ownSetting isa functionId).controlled block point ↔
      ∃ b, Relation.TransGen ((Graph.exitGraph f.transfers).EdgeAvoiding point) block b ∧
        f.parent? id = some b ∧ f.IsCode isa id := by
  rw [Setting.controlled, List.mem_filter, Option.any_eq_true, Region.insts_ofBranch]
  simp only [List.mem_flatMap]
  -- the instructions listed for a block of the region are those it owns
  have howned {b : BlockId} := @mem_ids_of_block?_iff f id b hf.consistent
  constructor
  · rintro ⟨⟨b, hregion, hb⟩, hcode⟩
    exact ⟨b, hf.wellListed.mem_region_iff.mp hregion, howned.mp hb, hcode⟩
  · rintro ⟨b, hreach, hparent, hcode⟩
    exact ⟨⟨b, hf.wellListed.mem_region_iff.mpr hreach, howned.mpr hparent⟩, hcode⟩

/-- The search along data starts from the branch, the nearest code before it, and what it
controls. -/
theorem mem_seeds_iff {controlled : List InstId} :
    x ∈ (f.ownSetting isa functionId).seeds branch controlled ↔
      x = branch ∨ f.Adjacent isa.isSubstantive x branch ∧ f.IsCode isa x ∨ x ∈ controlled := by
  have hprev : f.prev? branch isa.isSubstantive = some x ↔
      f.Adjacent isa.isSubstantive x branch ∧ f.IsCode isa x := prev?_eq_some_iff hf.consistent
  rw [← hprev]
  simp [Setting.seeds, ownSetting, setting]

/-- The analysis of a linked function succeeds. -/
theorem dependencies_eq_ok : f.dependencies isa functionId = .ok (f.findings isa functionId) := by
  rw [dependencies]
  cases hempty : f.blocks.isEmpty with
  | true =>
    -- without blocks there are no branches, and the findings are the empty ones
    have hlayout : f.layout = [] := by simpa [blocks] using hempty
    have hsites : ∀ point?, branchSites f point? = [] := by
      intro point?
      simp [branchSites, hlayout]
    have hcount : ∀ size, Setting.countDependent size [] = 0 := by
      simp [Setting.countDependent]
    simp only [findings, hsites, Dependencies.ofOutcomes, List.map_nil, List.filterMap_nil, hcount]
    rfl
  | false =>
    have hgraph : f.graph = .ok (Graph.ofBlocks f.transfers) := by
      rw [graph, hempty, hf.wellListed.ofBlocks?]
      rfl
    have hanalyse : ∀ site ∈ branchSites f (f.ownSetting isa functionId).point?,
        (f.ownSetting isa functionId).analyseSite site =
          .ok ((f.ownSetting isa functionId).outcome site) := by
      intro site hsite
      obtain ⟨-, -, hbranch⟩ := (mem_branchSites_iff_isCondBranch hf.consistent).mp hsite
      refine Setting.analyseSite_eq_ok ?_ fun point id hid => ?_
      · exact (isNumbered_ownSetting_iff hf).mpr hbranch.isCode
      · obtain ⟨-, -, -, hcode⟩ := (mem_controlled_iff hf).mp hid
        exact (isNumbered_ownSetting_iff hf).mpr hcode
    rw [hgraph]
    exact Dependencies.analyse_eq_ok hanalyse

end Linked

end Func

/-- Lists that agree one by one give the same, if elements that agree do. -/
theorem mapIdx_eq_of_agrees {α β : Type} {Agrees : α → α → Prop} {xs xs' : List α}
    (h : List.Forall₂ Agrees xs xs') {value : Nat → α → β}
    (hvalue : ∀ i a a', Agrees a a' → value i a' = value i a) :
    xs'.mapIdx value = xs.mapIdx value := by
  induction h generalizing value with
  | nil => rfl
  | cons hagrees _ ih =>
    rw [List.mapIdx_cons, List.mapIdx_cons, hvalue 0 _ _ hagrees,
      ih fun i a a' => hvalue (i + 1) a a']

/-- The analysis of a program whose functions are linked succeeds with the findings of each
function. -/
theorem Program.analyse_eq_ok_of_linked {program : Program} (h : ∀ f ∈ program.functions, f.Linked)
    (isa : Isa) :
    program.analyse isa =
      .ok (program.functions.mapIdx fun i f => f.findings isa (functionId i)) := by
  rw [Program.analyse_eq_mapM, mapM_eq_ok_iff, List.forall₂_iff_get]
  refine ⟨by simp, fun i hi hi' => ?_⟩
  rw [List.length_range] at hi
  have hat : program.functionAt i = .ok program.functions[i] := by
    rw [functionAt, List.getElem?_eq_getElem hi]
  simp only [List.get_eq_getElem, List.getElem_range, List.getElem_mapIdx]
  rw [dependenciesAt, hat]
  exact Func.dependencies_eq_ok (h _ (List.getElem_mem hi))

/-- So does that of a program whose functions are well formed. -/
theorem Program.analyse_eq_ok {program : Program} (h : ∀ f ∈ program.functions, f.WellFormed)
    (isa : Isa) :
    program.analyse isa =
      .ok (program.functions.mapIdx fun i f => f.findings isa (functionId i)) :=
  analyse_eq_ok_of_linked (fun f hf => (h f hf).toLinked) isa

end Rejoin
