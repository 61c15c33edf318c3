import Rejoin.Proofs.Dependence.Accounting

/-!
# Instructions without a number

An analysis needs the number of every instruction that a branch controls. If the numbers were given
out by another instruction set, some of them may be missing: what is code for the one set may be an
annotation for the other. `analyse_error_iff_outOfStep` says that this is the only way in which the
analysis of branches can fail, and that it always fails with the first such instruction it visits.
-/

namespace Rejoin

/-! ## What is looked up -/

namespace Setting

variable {s : Setting} {site : BranchSite}

/-- Asking for a number fails if the instruction has none. -/
theorem failsFirst_number (s : Setting) (id : InstId) :
    FailsFirst (s.number id) (if s.isNumbered id then [] else [.unnumbered s.func.name id]) := by
  cases hnumber : s.numbering.number? id with
  | none =>
    have hnot : s.isNumbered id = false := by rw [DataFlow.isNumbered, hnumber]; rfl
    rw [number, hnumber, hnot]
    exact .error
  | some n =>
    have hnumbered : s.isNumbered id = true := by rw [DataFlow.isNumbered, hnumber]; rfl
    rw [number, hnumber, hnumbered]
    exact .ok

/-- Looking up the numbers of a row of instructions fails with the first one that has none. -/
theorem failsFirst_numbers (s : Setting) (ids : List InstId) :
    FailsFirst (ids.mapM s.number)
      ((ids.filter fun id => !s.isNumbered id).map (.unnumbered s.func.name)) := by
  have hfaults : (ids.flatMap fun id =>
      if s.isNumbered id then [] else [AnalysisError.unnumbered s.func.name id]) =
        (ids.filter fun id => !s.isNumbered id).map (.unnumbered s.func.name) := by
    induction ids with
    | nil => rfl
    | cons id ids ih =>
      rw [List.flatMap_cons, ih]
      cases hid : s.isNumbered id with
      | true => simp [hid]
      | false => simp [hid]
  rw [← hfaults]
  exact .mapM fun id _ => failsFirst_number s id

/-- What is wrong with a branch: the instructions it controls that have no number. -/
def faults (s : Setting) (site : BranchSite) : List AnalysisError :=
  match site.point with
  | some point =>
    ((s.controlled site.block point).filter fun id => !s.isNumbered id).map
      (.unnumbered s.func.name)
  | none => []

/-- At a branch with a number the first instruction under its control without one is the fault. -/
theorem failsFirst_analyseSite (hsite : s.isNumbered site.inst = true) :
    FailsFirst (s.analyseSite site) (s.faults site) := by
  rw [analyseSite, faults]
  cases site.point with
  | none =>
    rw [number_eq_ok hsite]
    exact .ok
  | some point =>
    -- the branch has a number, so only the lookups of what it controls may fail
    refine FailsFirst.bind_pure ?_ Sum.inl
    rw [dependentsOf, number_eq_ok hsite]
    exact (failsFirst_numbers s (s.controlled site.block point)).bind_pure _

end Setting

/-- The analysis fails with the first fault of the first branch that has one. -/
theorem Dependencies.failsFirst_analyse {s : Setting}
    (h : ∀ site ∈ branchSites s.func s.point?, s.isNumbered site.inst = true) :
    FailsFirst (analyse s) ((branchSites s.func s.point?).flatMap s.faults) :=
  (FailsFirst.mapM fun site hsite => Setting.failsFirst_analyseSite (h site hsite)).bind_pure _

/-! ## What is visited -/

namespace Func

variable {f : Func} {graph : Graph} {point? : BlockId → Option BlockId} {id branch : InstId}

/-- The instruction is code for the one instruction set, by which the function is analysed, but not
for the other one, which numbers it. -/
def OutOfStep (f : Func) (isa numberingIsa : Isa) (id : InstId) : Prop :=
  f.IsCode isa id ∧ ¬f.IsCode numberingIsa id

/-- The instructions in the region of a branch, in the order of the search through its blocks. A
branch without a reconvergence point has no region. -/
def regionInsts (f : Func) (graph : Graph) (point? : BlockId → Option BlockId) (branch : InstId) :
    List InstId :=
  match f.parent? branch with
  | none => []
  | some block =>
    match point? block with
    | none => []
    | some point => (Region.ofBranch graph f block point).insts

/-- The instructions in the regions of all conditional branches, taken in layout order. -/
def visits (f : Func) (graph : Graph) (point? : BlockId → Option BlockId) : List InstId :=
  f.condBranches.flatMap (f.regionInsts graph point?)

/-- The instructions of the region of a branch, if its block has a point. -/
theorem mem_regionInsts_iff :
    id ∈ f.regionInsts graph point? branch ↔ ∃ block point, f.parent? branch = some block ∧
      point? block = some point ∧ id ∈ (Region.ofBranch graph f block point).insts := by
  rw [regionInsts]
  cases f.parent? branch with
  | none => simp
  | some block =>
    cases hpoint : point? block with
    | none => simp [hpoint]
    | some point => simp [hpoint]

/-- The analysis visits the instructions of all regions. -/
theorem mem_visits_iff (hf : f.Consistent) :
    id ∈ f.visits graph point? ↔ ∃ branch block point, f.IsCondBranch branch ∧
      f.parent? branch = some block ∧ point? block = some point ∧
      id ∈ (Region.ofBranch graph f block point).insts := by
  simp only [visits, List.mem_flatMap, mem_condBranches_iff hf, mem_regionInsts_iff]
  constructor
  · rintro ⟨branch, hbranch, block, point, hregion⟩
    exact ⟨branch, block, point, hbranch, hregion⟩
  · rintro ⟨branch, block, point, hbranch, hregion⟩
    exact ⟨branch, hbranch, block, point, hregion⟩

end Func

/-- What is wrong with the branches is that what they control has no number. -/
theorem Setting.flatMap_faults {s : Setting} (hf : s.func.Consistent) :
    (branchSites s.func s.point?).flatMap s.faults =
      ((s.func.visits s.graph s.point?).filter fun id =>
        !s.isNumbered id && (s.func.inst? id).any s.isa.isSubstantive).map
          (.unnumbered s.func.name) := by
  rw [Func.visits, ← s.func.map_inst_branchSites s.point?, List.flatMap_map, List.filter_flatMap,
    List.map_flatMap]
  -- branch by branch: what it controls is the code of its region
  apply List.flatMap_congr
  intro site hsite
  obtain ⟨hpoint, hparent, -⟩ := (Func.mem_branchSites_iff_isCondBranch hf).mp hsite
  simp only [faults, Func.regionInsts, hparent, ← hpoint]
  cases site.point with
  | none => rfl
  | some point =>
    dsimp only
    rw [controlled, List.filter_filter]

/-- **An instruction without a number is always noticed, and nothing else is complained of.** A
function may be analysed with any graph, any reconvergence points and any consumers, by one
instruction set with the numbers of another. The analysis fails if and only if some branch with a
reconvergence point has an instruction in its region that is code for the first set but not for the
second. It then fails with the first such instruction, branches being taken in layout order and each
region in the order of its search. -/
theorem analyse_error_iff_outOfStep {f : Func} (hf : f.Built) (isa numberingIsa : Isa)
    (functionId : UInt32) (consumers : InstId → List InstId) (graph : Graph)
    (point? : BlockId → Option BlockId) :
    let s : Setting :=
      { func := f, isa, numbering := .ofFunc numberingIsa functionId f, consumers, graph, point? }
    ((∃ e, Dependencies.analyse s = .error e) ↔ ∃ branch block point id,
      f.IsCondBranch branch ∧ f.parent? branch = some block ∧ point? block = some point ∧
      id ∈ (Region.ofBranch graph f block point).insts ∧ f.OutOfStep isa numberingIsa id) ∧
    ∀ e, Dependencies.analyse s = .error e ↔
      ∃ id, IsFirst (f.OutOfStep isa numberingIsa) (f.visits graph point?) id ∧
        e = .unnumbered f.name id := by
  intro s
  have hids := hf.consistent
  have hnumbered (id : InstId) : s.isNumbered id = true ↔ f.IsCode numberingIsa id := by
    rw [DataFlow.isNumbered, Option.isSome_iff_exists]
    exact Numbering.exists_number?_iff hids
  have houtOfStep (id : InstId) :
      (!s.isNumbered id && (f.inst? id).any isa.isSubstantive) = true ↔
        f.OutOfStep isa numberingIsa id := by
    rw [Bool.and_eq_true, Bool.not_eq_true', ← Bool.not_eq_true, hnumbered, Option.any_eq_true,
      and_comm]
    rfl
  have hfails : FailsFirst (Dependencies.analyse s)
      (((f.visits graph point?).filter fun id =>
        !s.isNumbered id && (f.inst? id).any isa.isSubstantive).map (.unnumbered f.name)) := by
    have hfaults := Setting.flatMap_faults (s := s) hids
    rw [← hfaults]
    apply Dependencies.failsFirst_analyse
    -- branches are code for every instruction set, so they have numbers themselves
    intro site hsite
    obtain ⟨-, -, hbranch⟩ := (Func.mem_branchSites_iff_isCondBranch hids).mp hsite
    exact hbranch.isSome_number?
  have herror (e : AnalysisError) : Dependencies.analyse s = .error e ↔
      ∃ id, IsFirst (f.OutOfStep isa numberingIsa) (f.visits graph point?) id ∧
        e = .unnumbered f.name id := hfails.eq_error_iff houtOfStep
  refine ⟨?_, herror⟩
  calc (∃ e, Dependencies.analyse s = .error e)
    _ ↔ ∃ id, IsFirst (f.OutOfStep isa numberingIsa) (f.visits graph point?) id := by
      simp only [herror]
      constructor
      · rintro ⟨_, id, hfirst, -⟩
        exact ⟨id, hfirst⟩
      · rintro ⟨id, hfirst⟩
        exact ⟨_, id, hfirst, rfl⟩
    _ ↔ ∃ id ∈ f.visits graph point?, f.OutOfStep isa numberingIsa id := exists_isFirst_iff
    _ ↔ _ := by
      simp only [Func.mem_visits_iff hids]
      constructor
      · rintro ⟨id, ⟨branch, block, point, hbranch, hparent, hpoint, hregion⟩, hid⟩
        exact ⟨branch, block, point, id, hbranch, hparent, hpoint, hregion, hid⟩
      · rintro ⟨branch, block, point, id, hbranch, hparent, hpoint, hregion, hid⟩
        exact ⟨id, ⟨branch, block, point, hbranch, hparent, hpoint, hregion⟩, hid⟩

/-- A function with annotations before a branch and in the region of another one. -/
def notedFunc : Func :=
  .ofBlocks "@f"
    [("entry", [.op "kill" [.value "%z"] none, .branch (some (.value "%c")) 1 2]),
      ("then", [.op "mov" [.int 1] (some "%x")]),
      ("join", [.branch (some (.value "%d")) 3 4]),
      ("body", [.op "mov" [.value "%x"] (some "%y"), .op "cfi.offset" [.int 16] none,
        .op "kill" [.value "%x"] none]),
      ("exit", [.ret none])]

/-- Of the annotations of `notedFunc`, the first is in no region, and of the others only the one
that is visited first is named. -/
theorem analyse_error_iff_outOfStep_notedFunc :
    let s := notedFunc.mixedSetting .generic .x86 10000
    notedFunc.Built ∧ Dependencies.analyse s = .error (.unnumbered "@f" 5) ∧
      IsFirst (notedFunc.OutOfStep .generic .x86) (notedFunc.visits s.graph s.point?) 5 := by
  intro s
  have hf : notedFunc.Built := Func.built_ofBlocks _ _
  have herror : Dependencies.analyse s = .error (.unnumbered "@f" 5) := by decide +kernel
  obtain ⟨-, hfirst⟩ :=
    analyse_error_iff_outOfStep hf .generic .x86 10000 s.consumers s.graph s.point?
  obtain ⟨id, hid, heq⟩ := (hfirst _).mp herror
  obtain ⟨-, rfl⟩ := AnalysisError.unnumbered.inj heq
  exact ⟨hf, herror, hid⟩

end Rejoin
