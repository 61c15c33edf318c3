import Mathlib.Data.Finset.Card
import Rejoin.Proofs.Dependence.Analysis
import Rejoin.Proofs.Machine.Building

/-!
# What a result accounts for

The branches of a function may be analysed with any graph, any reconvergence points, any consumers,
and with numbers that were given out by another instruction set. If there is a result at all, it
accounts for the whole function: each conditional branch is analysed or skipped, and its totals are
those of what it lists. `Dependencies.Accounts` says what this means, and
`Dependencies.accounts_of_analyse` proves it of every result.

* `Dependencies.eq_ofOutcomes` — a result is put together from one outcome for each branch;
* `Setting.countDependent_eq_card` — numbers that occur among dependents are counted once.
-/

namespace Rejoin

/-! ## The conditional branches of a function -/

namespace Func

variable {f : Func} {isa : Isa} {functionId : UInt32} {id : InstId}

/-- The conditional branches in layout order. -/
def condBranches (f : Func) : List InstId :=
  (f.insts.filter fun entry => entry.2.isBranch).map Prod.fst

/-- The branches that are found are the conditional branches in layout order. -/
theorem map_inst_branchSites (f : Func) (point? : BlockId → Option BlockId) :
    (branchSites f point?).map BranchSite.inst = f.condBranches := by
  calc (branchSites f point?).map BranchSite.inst
    _ = f.layout.flatMap fun entry =>
          (entry.2.insts.filter fun entry => entry.2.isBranch).map Prod.fst := by
      simp only [branchSites, List.map_flatMap, List.map_map, Function.comp_def]
    _ = f.condBranches := by
      rw [condBranches, insts_eq_flatMap_layout, List.filter_flatMap, List.map_flatMap]

/-- A conditional branch is code for every instruction set, so it has a number in its place. -/
theorem condBranches_sublist_order (f : Func) (isa : Isa) (functionId : UInt32) :
    f.condBranches.Sublist (Numbering.ofFunc isa functionId f).order := by
  rw [Numbering.order_ofFunc]
  apply List.Sublist.map
  apply List.monotone_filter_right
  exact fun entry hbranch => Isa.isSubstantive_of_isBranch hbranch

section Consistent

variable (hf : f.Consistent)

include hf

theorem mem_condBranches_iff : id ∈ f.condBranches ↔ f.IsCondBranch id := by
  simp [condBranches, IsCondBranch, inst?_eq_some_iff hf]

theorem nodup_condBranches : f.condBranches.Nodup :=
  hf.nodup_ids.sublist (List.filter_sublist.map Prod.fst)

end Consistent

end Func

/-! ## Outcomes of branches -/

namespace Setting

variable {s : Setting} {id : InstId} {n : Nat} {site : BranchSite}

/-- A number is given where the numbering has one. -/
theorem number_eq_ok_iff : s.number id = .ok n ↔ s.numbering.number? id = some n := by
  rw [number]
  cases s.numbering.number? id with
  | none => simp
  | some m => rw [Except.ok.injEq, Option.some.injEq]

theorem numberOf_eq (h : s.numbering.number? id = some n) : s.numberOf id = n := by
  rw [numberOf, h, Option.getD_some]

/-- A branch that comes through has a number, and its outcome. -/
theorem outcome_of_analyseSite {result : BranchDependents ⊕ SkippedBranch}
    (h : s.analyseSite site = .ok result) :
    result = s.outcome site ∧ s.numbering.number? site.inst = some (s.numberOf site.inst) := by
  rw [analyseSite] at h
  rw [outcome]
  cases hpoint : site.point with
  | none =>
    rw [hpoint] at h
    obtain ⟨branch, hbranch, h⟩ := bind_eq_ok_iff.mp h
    rw [number_eq_ok_iff] at hbranch
    rw [numberOf_eq hbranch]
    exact ⟨(Except.ok.inj h).symm, hbranch⟩
  | some point =>
    rw [hpoint] at h
    obtain ⟨dependents, hdependents, h⟩ := bind_eq_ok_iff.mp h
    obtain ⟨branch, hbranch, hrest⟩ := bind_eq_ok_iff.mp hdependents
    -- the numbers of the controlled instructions are looked up and then dropped
    obtain ⟨_, -, hrest⟩ := bind_eq_ok_iff.mp hrest
    obtain rfl := Except.ok.inj hrest
    rw [number_eq_ok_iff] at hbranch
    simp only [findingsOf, numberOf_eq hbranch]
    exact ⟨(Except.ok.inj h).symm, hbranch⟩

/-- What depends on a branch does so by control or by data. -/
theorem mem_dependents_findingsOf {inst : InstId} {block point : BlockId} :
    n ∈ (s.findingsOf inst block point).dependents ↔
      n ∈ (s.findingsOf inst block point).control ∨ n ∈ (s.findingsOf inst block point).data := by
  simp only [findingsOf, Numbering.mem_collect_iff_getElem?, List.mem_append, or_and_right,
    exists_or]

/-- The numbers of instructions that are listed in the order of their numbers are ascending. -/
theorem pairwise_map_numberOf (hagrees : s.numbering.Agrees)
    (hs : s.numbering.order.Nodup) {ids : List InstId}
    (h : ids.Sublist s.numbering.order) : (ids.map s.numberOf).Pairwise (· < ·) := by
  have hall : s.numbering.order.map s.numberOf = List.range s.numbering.order.length := by
    apply List.ext_getElem
    · rw [List.length_map, List.length_range]
    · intro n hn _
      rw [List.length_map] at hn
      rw [List.getElem_map, List.getElem_range]
      exact numberOf_eq ((hagrees.number?_eq_some_iff hs).mpr (List.getElem?_eq_getElem hn))
  have hsub : (ids.map s.numberOf).Sublist (List.range s.numbering.order.length) := by
    rw [← hall]
    exact h.map s.numberOf
  exact List.pairwise_lt_range.sublist hsub

/-- No more instructions depend on branches than there are. -/
theorem countDependent_le (size : Nat) (branches : List BranchDependents) :
    countDependent size branches ≤ size := by
  calc countDependent size branches
    _ ≤ (List.range size).length := List.length_filter_le _ _
    _ = size := List.length_range

/-- Where all dependents are below `size`, the count is that of the different dependents. -/
theorem countDependent_eq_card {size : Nat} {branches : List BranchDependents}
    (h : ∀ b ∈ branches, ∀ n ∈ b.dependents, n < size) :
    countDependent size branches =
      (branches.flatMap BranchDependents.dependents).toFinset.card := by
  have hnodup : ((List.range size).filter fun n =>
      branches.any fun b => b.dependents.contains n).Nodup :=
    List.nodup_range.filter _
  rw [countDependent, ← List.toFinset_card_of_nodup hnodup]
  congr 1
  ext n
  simp only [List.mem_toFinset, List.mem_filter, List.mem_range, List.any_eq_true,
    List.contains_iff_mem, List.mem_flatMap]
  constructor
  · rintro ⟨-, hn⟩
    exact hn
  · rintro ⟨b, hb, hn⟩
    exact ⟨h b hb n hn, b, hb, hn⟩

end Setting

namespace Dependencies

variable {s : Setting} {deps : Dependencies}

/-- Every branch of a result has come through. -/
theorem exists_analyseSite (h : analyse s = .ok deps) :
    ∀ site ∈ branchSites s.func s.point?, ∃ result, s.analyseSite site = .ok result := by
  rw [analyse] at h
  obtain ⟨results, hresults, -⟩ := bind_eq_ok_iff.mp h
  exact fun site hsite => exists_ok_of_mapM hresults hsite

/-- A result is put together from the outcomes of the branches. -/
theorem eq_ofOutcomes (h : analyse s = .ok deps) :
    deps = ofOutcomes s.numbering s.func.name
      ((branchSites s.func s.point?).map s.outcome) := by
  have hsites : ∀ site ∈ branchSites s.func s.point?,
      s.analyseSite site = .ok (s.outcome site) := by
    intro site hsite
    obtain ⟨result, hresult⟩ := exists_analyseSite h site hsite
    rw [hresult, (Setting.outcome_of_analyseSite hresult).1]
  rw [analyse_eq_ok hsites] at h
  exact (Except.ok.inj h).symm

/-- The totals are those of the lists of the result. -/
theorem summary_eq (h : analyse s = .ok deps) :
    deps.summary =
      { instructions := s.numbering.size
        branches := deps.branches.length
        skipped := deps.skipped.length
        dependent := Setting.countDependent s.numbering.size deps.branches
        independent :=
          s.numbering.size - Setting.countDependent s.numbering.size deps.branches } := by
  rw [eq_ofOutcomes h]
  rfl

section Outcomes

variable (numbering : Numbering) (name : String) (s : Setting) (sites : List BranchSite)

/-- The analysed branches are the sites with a point, in order. -/
theorem branches_ofOutcomes :
    (ofOutcomes numbering name (sites.map s.outcome)).branches =
      (sites.filter fun site => site.point.isSome).map fun site =>
        s.findingsOf site.inst site.block (site.point.getD 0) := by
  change (sites.map s.outcome).filterMap Sum.getLeft? = _
  induction sites with
  | nil => rfl
  | cons site sites ih =>
    rw [List.map_cons]
    cases hpoint : site.point with
    | none =>
      have hleft : (s.outcome site).getLeft? = none := by rw [Setting.outcome, hpoint]; rfl
      rw [List.filterMap_cons_none hleft, ih, List.filter_cons_of_neg (by simp [hpoint])]
    | some point =>
      have hleft : (s.outcome site).getLeft? =
          some (s.findingsOf site.inst site.block point) := by rw [Setting.outcome, hpoint]; rfl
      rw [List.filterMap_cons_some hleft, ih, List.filter_cons_of_pos (by simp [hpoint]),
        List.map_cons, hpoint, Option.getD_some]

/-- The skipped branches are the sites without one. -/
theorem skipped_ofOutcomes :
    (ofOutcomes numbering name (sites.map s.outcome)).skipped =
      (sites.filter fun site => !site.point.isSome).map fun site =>
        ⟨s.numberOf site.inst, site.inst, site.block⟩ := by
  change (sites.map s.outcome).filterMap Sum.getRight? = _
  induction sites with
  | nil => rfl
  | cons site sites ih =>
    rw [List.map_cons]
    cases hpoint : site.point with
    | none =>
      have hright : (s.outcome site).getRight? =
          some ⟨s.numberOf site.inst, site.inst, site.block⟩ := by rw [Setting.outcome, hpoint]; rfl
      rw [List.filterMap_cons_some hright, ih, List.filter_cons_of_pos (by simp [hpoint]),
        List.map_cons]
    | some point =>
      have hright : (s.outcome site).getRight? = none := by rw [Setting.outcome, hpoint]; rfl
      rw [List.filterMap_cons_none hright, ih, List.filter_cons_of_neg (by simp [hpoint])]

end Outcomes

/-- A branch with findings was found at a site with a point of reconvergence. -/
theorem exists_site_of_mem_branches (h : analyse s = .ok deps) {b : BranchDependents}
    (hb : b ∈ deps.branches) :
    ∃ site ∈ branchSites s.func s.point?, ∃ point, site.point = some point ∧
      b = s.findingsOf site.inst site.block point := by
  rw [eq_ofOutcomes h, branches_ofOutcomes, List.mem_map] at hb
  obtain ⟨site, hsite, rfl⟩ := hb
  obtain ⟨hsite, hsome⟩ := List.mem_filter.mp hsite
  obtain ⟨point, hpoint⟩ := Option.isSome_iff_exists.mp hsome
  exact ⟨site, hsite, point, hpoint, by rw [hpoint, Option.getD_some]⟩

/-- A branch that is skipped was found at a site without one. -/
theorem exists_site_of_mem_skipped (h : analyse s = .ok deps) {b : SkippedBranch}
    (hb : b ∈ deps.skipped) :
    ∃ site ∈ branchSites s.func s.point?, site.point = none ∧
      b = ⟨s.numberOf site.inst, site.inst, site.block⟩ := by
  rw [eq_ofOutcomes h, skipped_ofOutcomes, List.mem_map] at hb
  obtain ⟨site, hsite, rfl⟩ := hb
  obtain ⟨hsite, hnone⟩ := List.mem_filter.mp hsite
  exact ⟨site, hsite, by simpa using hnone, rfl⟩

/-- Every site of a result has a number, stands in its block, and has the point of the block. -/
theorem site_of_analyse (h : analyse s = .ok deps) (hf : s.func.Consistent)
    {site : BranchSite} (hsite : site ∈ branchSites s.func s.point?) :
    s.numbering.number? site.inst = some (s.numberOf site.inst) ∧
      s.func.parent? site.inst = some site.block ∧ s.point? site.block = site.point := by
  obtain ⟨result, hresult⟩ := exists_analyseSite h site hsite
  obtain ⟨hpoint, hparent, -⟩ := (Func.mem_branchSites_iff_isCondBranch hf).mp hsite
  exact ⟨(Setting.outcome_of_analyseSite hresult).2, hparent, hpoint.symm⟩

/-- The branches of a result are those of the function. -/
theorem perm_condBranches (h : analyse s = .ok deps) :
    (deps.branches.map BranchDependents.inst ++ deps.skipped.map SkippedBranch.inst).Perm
      s.func.condBranches := by
  rw [eq_ofOutcomes h, branches_ofOutcomes, skipped_ofOutcomes, List.map_map, List.map_map,
    ← s.func.map_inst_branchSites s.point?]
  -- the sites fall into those with a point and those without one
  have hsplit := List.filter_append_perm (fun site => site.point.isSome)
    (branchSites s.func s.point?)
  have hinsts := hsplit.map BranchSite.inst
  rwa [List.map_append] at hinsts

/-- Branches are listed in the order of their numbers. -/
theorem pairwise_numbers (h : analyse s = .ok deps) (hagrees : s.numbering.Agrees)
    (hs : s.numbering.order.Nodup)
    (hsub : s.func.condBranches.Sublist s.numbering.order) :
    (deps.branches.map BranchDependents.branch).Pairwise (· < ·) ∧
      (deps.skipped.map SkippedBranch.branch).Pairwise (· < ·) := by
  have hascending (p : BranchSite → Bool) :
      (((branchSites s.func s.point?).filter p).map
        (s.numberOf ∘ BranchSite.inst)).Pairwise (· < ·) := by
    rw [← List.map_map]
    apply Setting.pairwise_map_numberOf hagrees hs
    refine (List.filter_sublist.map BranchSite.inst).trans ?_
    rwa [s.func.map_inst_branchSites]
  rw [eq_ofOutcomes h, branches_ofOutcomes, skipped_ofOutcomes, List.map_map, List.map_map]
  exact ⟨hascending _, hascending _⟩

/-- The result accounts for the function, given the numbers of its instructions and the instruction
set that gave them out, and the points at which branches reconverge. -/
structure Accounts (deps : Dependencies) (f : Func) (numberingIsa : Isa) (numbering : Numbering)
    (point? : BlockId → Option BlockId) : Prop where
  /-- The branches that are analysed and those that are skipped are the conditional branches. -/
  perm : (deps.branches.map BranchDependents.inst ++ deps.skipped.map SkippedBranch.inst).Perm
    f.condBranches
  /-- No branch is listed twice. -/
  nodup : (deps.branches.map BranchDependents.inst ++ deps.skipped.map SkippedBranch.inst).Nodup
  /-- A conditional branch is analysed if its block has a point, and only then. -/
  mem_branches_iff : ∀ id block, f.IsCondBranch id → f.parent? id = some block →
    (id ∈ deps.branches.map BranchDependents.inst ↔ ∃ point, point? block = some point)
  /-- An analysed branch has its number, its block and the point of its block. -/
  branches : ∀ b ∈ deps.branches, numbering.number? b.inst = some b.branch ∧
    f.parent? b.inst = some b.block ∧ point? b.block = some b.point
  /-- A skipped branch has its number and its block, which has no point. -/
  skipped : ∀ b ∈ deps.skipped, numbering.number? b.inst = some b.branch ∧
    f.parent? b.inst = some b.block ∧ point? b.block = none
  /-- Branches are listed by ascending number. -/
  ascending : (deps.branches.map BranchDependents.branch).Pairwise (· < ·) ∧
    (deps.skipped.map SkippedBranch.branch).Pairwise (· < ·)
  /-- Dependents are what the branch controls or what depends on its data. -/
  mem_dependents_iff : ∀ b ∈ deps.branches, ∀ n,
    n ∈ b.dependents ↔ n ∈ b.control ∨ n ∈ b.data
  /-- Dependents are numbers of code. -/
  isCode : ∀ b ∈ deps.branches, ∀ n ∈ b.dependents, n < deps.summary.instructions ∧
    ∃ id, numbering.inst? n = some id ∧ f.IsCode numberingIsa id
  /-- All numbered instructions are counted. -/
  instructions : deps.summary.instructions = numbering.size
  /-- The branches that are counted are those that are listed. -/
  listed : deps.summary.branches = deps.branches.length ∧
    deps.summary.skipped = deps.skipped.length
  /-- They are all conditional branches of the function. -/
  count : deps.summary.branches + deps.summary.skipped = f.condBranches.length
  /-- What depends on several branches is counted once. -/
  dependent : deps.summary.dependent =
    (deps.branches.flatMap BranchDependents.dependents).toFinset.card
  /-- All other instructions are independent, and no more. -/
  independent : deps.summary.dependent + deps.summary.independent = deps.summary.instructions

section Numbered

variable {f : Func} {isa numberingIsa : Isa} {functionId : UInt32}
  {consumers : InstId → List InstId} {graph : Graph} {point? : BlockId → Option BlockId}
  (hf : f.Built)
  (h : analyse
    { func := f, isa, numbering := .ofFunc numberingIsa functionId f, consumers, graph, point? } =
      .ok deps)

include hf h

/-- A branch with findings is reported with its number, its block and the point of the block. -/
theorem branch_of_mem_branches {b : BranchDependents} (hb : b ∈ deps.branches) :
    (Numbering.ofFunc numberingIsa functionId f).number? b.inst = some b.branch ∧
      f.parent? b.inst = some b.block ∧ point? b.block = some b.point := by
  obtain ⟨site, hsite, point, hpoint, rfl⟩ := exists_site_of_mem_branches h hb
  obtain ⟨hnumber, hparent, hblock⟩ := site_of_analyse h hf.consistent hsite
  exact ⟨hnumber, hparent, hblock.trans hpoint⟩

/-- So is a branch that is skipped, whose block has no point. -/
theorem branch_of_mem_skipped {b : SkippedBranch} (hb : b ∈ deps.skipped) :
    (Numbering.ofFunc numberingIsa functionId f).number? b.inst = some b.branch ∧
      f.parent? b.inst = some b.block ∧ point? b.block = none := by
  obtain ⟨site, hsite, hpoint, rfl⟩ := exists_site_of_mem_skipped h hb
  obtain ⟨hnumber, hparent, hblock⟩ := site_of_analyse h hf.consistent hsite
  exact ⟨hnumber, hparent, hblock.trans hpoint⟩

/-- A branch has findings exactly when its block has a point. -/
theorem mem_map_inst_branches_iff {id : InstId} {block : BlockId} (hid : f.IsCondBranch id)
    (hparent : f.parent? id = some block) :
    id ∈ deps.branches.map BranchDependents.inst ↔ ∃ point, point? block = some point := by
  constructor
  · intro hmem
    obtain ⟨b, hb, rfl⟩ := List.mem_map.mp hmem
    obtain ⟨-, howner, hpoint⟩ := branch_of_mem_branches hf h hb
    obtain rfl := Option.some.inj (howner.symm.trans hparent)
    exact ⟨b.point, hpoint⟩
  · rintro ⟨point, hpoint⟩
    have hlisted := (perm_condBranches h).mem_iff.mpr
      ((Func.mem_condBranches_iff hf.consistent).mpr hid)
    -- if it were skipped, its block would have no point
    refine (List.mem_append.mp hlisted).resolve_right fun hmem => ?_
    obtain ⟨b, hb, rfl⟩ := List.mem_map.mp hmem
    obtain ⟨-, howner, hnone⟩ := branch_of_mem_skipped hf h hb
    obtain rfl := Option.some.inj (howner.symm.trans hparent)
    rw [hpoint] at hnone
    cases hnone

/-- Dependents are numbers of instructions that were numbered as code. -/
theorem isCode_of_mem_dependents {b : BranchDependents} (hb : b ∈ deps.branches) {n : Nat}
    (hn : n ∈ b.dependents) :
    n < (Numbering.ofFunc numberingIsa functionId f).size ∧
      ∃ id, (Numbering.ofFunc numberingIsa functionId f).inst? n = some id ∧
        f.IsCode numberingIsa id := by
  obtain ⟨site, -, point, -, rfl⟩ := exists_site_of_mem_branches h hb
  obtain ⟨id, -, hget⟩ := Numbering.mem_collect_iff_getElem?.mp hn
  obtain ⟨inst, hinst, hsubstantive⟩ :=
    Numbering.mem_order_ofFunc_iff.mp (List.mem_of_getElem? hget)
  exact ⟨(List.getElem?_eq_some_iff.mp hget).1, id, hget, inst,
    (Func.inst?_eq_some_iff hf.consistent).mpr hinst, hsubstantive⟩

end Numbered

/-- **Every result accounts for its function.** The graph, the points and the consumers may be any,
and the numbers may have been given out by another instruction set. -/
theorem accounts_of_analyse {f : Func} (hf : f.Built) {isa numberingIsa : Isa}
    {functionId : UInt32} {consumers : InstId → List InstId} {graph : Graph}
    {point? : BlockId → Option BlockId}
    (h : analyse
      { func := f, isa, numbering := .ofFunc numberingIsa functionId f, consumers, graph,
        point? } = .ok deps) :
    deps.Accounts f numberingIsa (.ofFunc numberingIsa functionId f) point? := by
  have hperm := perm_condBranches h
  have hsummary := summary_eq h
  exact
    { perm := hperm
      nodup := hperm.nodup_iff.mpr (Func.nodup_condBranches hf.consistent)
      mem_branches_iff := fun _ _ => mem_map_inst_branches_iff hf h
      branches := fun _ => branch_of_mem_branches hf h
      skipped := fun _ => branch_of_mem_skipped hf h
      ascending := pairwise_numbers h (Numbering.agrees_ofFunc numberingIsa functionId f)
        (Numbering.nodup_order_ofFunc hf.nodup_ids)
        (f.condBranches_sublist_order numberingIsa functionId)
      mem_dependents_iff := by
        intro b hb n
        obtain ⟨site, -, point, -, rfl⟩ := exists_site_of_mem_branches h hb
        exact Setting.mem_dependents_findingsOf
      isCode := by
        rw [hsummary]
        exact fun _ hb _ => isCode_of_mem_dependents hf h hb
      instructions := by rw [hsummary]
      listed := by rw [hsummary]; exact ⟨rfl, rfl⟩
      count := by
        rw [hsummary, ← hperm.length_eq, List.length_append, List.length_map, List.length_map]
      dependent := by
        rw [hsummary]
        exact Setting.countDependent_eq_card fun _ hb _ hn =>
          (isCode_of_mem_dependents hf h hb hn).1
      independent := by
        rw [hsummary]
        exact Nat.add_sub_cancel' (Setting.countDependent_le _ _) }

end Dependencies

/-- The setting in which a function is analysed by one instruction set with the numbers of
another. -/
def Func.mixedSetting (f : Func) (isa numberingIsa : Isa) (functionId : UInt32) : Setting :=
  { f.ownSetting isa functionId with numbering := .ofFunc numberingIsa functionId f }

/-- A function with an annotation that reads a value, and a branch whose ways do not rejoin. -/
def killedFunc : Func :=
  .ofBlocks "@f"
    [("entry", [.op "load" [.value "%p"] (some "%x"), .branch (some (.value "%x")) 1 2]),
      ("then", [.op "mov" [.int 1] (some "%y")]),
      ("join", [.op "kill" [.value "%y"] none, .branch none 3 4]),
      ("left", [.ret none]),
      ("right", [.ret none])]

/-- What is found in `killedFunc`. The annotation has a number, so it is among the dependents. -/
def killedDependencies : Dependencies where
  functionId := 10000
  name := "@f"
  branches := [⟨1, 1, 0, 2, [2], [1, 3, 4], [1, 2, 3, 4]⟩]
  skipped := [⟨4, 4, 2⟩]
  summary := ⟨7, 1, 1, 4, 3⟩

/-- In `killedFunc` the numbering is that of the other instruction set; the account holds
nevertheless. -/
theorem accounts_of_analyse_killedFunc :
    killedFunc.Built ∧
      Dependencies.analyse (killedFunc.mixedSetting .x86 .generic 10000) =
        .ok killedDependencies ∧
      killedDependencies.Accounts killedFunc .generic (.ofFunc .generic 10000 killedFunc)
        (killedFunc.mixedSetting .x86 .generic 10000).point? := by
  have hf : killedFunc.Built := Func.built_ofBlocks _ _
  have h : Dependencies.analyse (killedFunc.mixedSetting .x86 .generic 10000) =
      .ok killedDependencies := by
    decide +kernel
  exact ⟨hf, h, Dependencies.accounts_of_analyse hf h⟩

end Rejoin
