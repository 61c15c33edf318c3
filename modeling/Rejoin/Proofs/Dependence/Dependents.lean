import Mathlib.Order.Bounds.Basic
import Rejoin.Proofs.Dependence.Analysis
import Rejoin.Proofs.Dependence.DefUse
import Rejoin.Proofs.Listing.Lowering

/-!
# Dependents as a least closed set

The dependents of a branch are computed by two searches, one through the blocks it controls and one
along data, and the second treats a fused branch differently once it has been worked through. The
order of this work does not matter: `dependents_iff_least_closed` says that the dependents are the
numbers of the least set of instructions closed under three rules, `Func.DependenceClosed`.
-/

open Relation

namespace Rejoin

namespace Func

variable {f : Func} {isa : Isa} {functionId : UInt32} {branch x y j k : InstId}
  {block point : BlockId}

/-- The instruction `y` reads the value that `x` defines. -/
def Feeds (f : Func) (x y : InstId) : Prop :=
  ∃ inst name reader, f.inst? x = some inst ∧ inst.result = some name ∧
    f.inst? y = some reader ∧ name ∈ reader.uses

/-- The rules of dependence on a branch of `block` that reconverges at `point`. -/
structure DependenceClosed (f : Func) (isa : Isa) (branch : InstId) (block point : BlockId)
    (D : Set InstId) : Prop where
  /-- Code in a block that is entered before the reconvergence point depends on the branch. -/
  controlled : ∀ b, TransGen ((Graph.exitGraph f.transfers).EdgeAvoiding point) block b →
    ∀ id, f.parent? id = some b → f.IsCode isa id → id ∈ D
  /-- Code that reads a value defined by the branch, by the nearest code before it in its block, or
  by something dependent depends on the branch. -/
  data : ∀ x y, x = branch ∨ f.Adjacent isa.isSubstantive x branch ∧ f.IsCode isa x ∨ x ∈ D →
    f.Feeds x y → f.IsCode isa y → y ∈ D
  /-- If compares are fused with branches, another conditional branch that is the next code after
  something dependent depends on the branch. -/
  fused : isa.fuses = true → ∀ j ∈ D, ∀ k, f.Adjacent isa.isSubstantive j k →
    f.IsCondBranch k → k ≠ branch → k ∈ D

/-- What the search through blocks and the search along data find together. -/
def dependentInsts (f : Func) (isa : Isa) (functionId : UInt32) (branch : InstId)
    (block point : BlockId) : List InstId :=
  let s := f.ownSetting isa functionId
  s.controlled block point ++ s.closure (s.seeds branch (s.controlled block point))

section Linked

variable (hf : f.Linked)

include hf

/-- The consumers of an instruction are those it feeds. -/
theorem mem_consumers_ownSetting_iff :
    y ∈ (f.ownSetting isa functionId).consumers x ↔ f.Feeds x y :=
  DefUse.mem_consumers_iff hf.consistent

/-- An instruction is fused with the branch that stands directly behind it. -/
theorem fusedBranch?_ownSetting_iff :
    (f.ownSetting isa functionId).fusedBranch? j = some k ↔
      isa.fuses = true ∧ f.Adjacent isa.isSubstantive j k ∧ f.IsCondBranch k := by
  have hfused : (f.ownSetting isa functionId).fusedBranch? j = some k ↔
      isa.fuses = true ∧ f.IsCondBranch k ∧ f.next? j isa.isSubstantive = some k :=
    DataFlow.fusedBranch?_eq_some_iff fun _ hk => IsCondBranch.isSome_number? hk
  rw [hfused, next?_eq_some_iff hf.consistent]
  constructor
  · rintro ⟨hfuses, hk, hadjacent, -⟩
    exact ⟨hfuses, hadjacent, hk⟩
  · rintro ⟨hfuses, hadjacent, hk⟩
    exact ⟨hfuses, hk, hadjacent, hk.isCode⟩

/-- Instructions of one block have one owner. -/
theorem parent?_eq_of_adjacent {p : Inst BlockId → Bool} (h : f.Adjacent p j k) :
    f.parent? j = f.parent? k := by
  obtain ⟨owner, howner, before, between, after, instJ, instK, heq, -⟩ := h
  obtain ⟨i, hget⟩ := hf.consistent.exists_block?_of_mem howner
  have hj : f.parent? j = some i :=
    (parent?_eq_some_iff hf.consistent).mpr ⟨_, hget, by simp [heq]⟩
  have hk : f.parent? k = some i :=
    (parent?_eq_some_iff hf.consistent).mpr ⟨_, hget, by simp [heq]⟩
  rw [hj, hk]

/-- A block that owns an instruction is a block of the graph. -/
theorem mem_transfers_of_parent? (h : f.parent? x = some block) :
    block ∈ f.transfers.map Prod.fst := by
  obtain ⟨owner, howner, -⟩ := (parent?_eq_some_iff hf.consistent).mp h
  rw [hf.consistent.map_fst_transfers, List.mem_range, ← hf.consistent.isSome_block?_iff, howner]
  rfl

/-- The two searches find nothing outside a closed set. -/
theorem mem_of_mem_dependentInsts {D : Set InstId}
    (hD : f.DependenceClosed isa branch block point D)
    (hx : x ∈ f.dependentInsts isa functionId branch block point) : x ∈ D := by
  have hcontrolled : ∀ id ∈ (f.ownSetting isa functionId).controlled block point, id ∈ D := by
    intro id hid
    obtain ⟨b, hreach, hparent, hcode⟩ := (mem_controlled_iff hf).mp hid
    exact hD.controlled b hreach id hparent hcode
  rcases List.mem_append.mp hx with hx | hx
  · exact hcontrolled x hx
  · -- every step of the search along data stays in `D`; the branch itself is worked through first
    refine DataFlow.forall_mem_closure_cons
      (fun x => x = branch ∨ f.Adjacent isa.isSubstantive x branch ∧ f.IsCode isa x ∨ x ∈ D)
      (fun x => x ∈ D) ?_ ?_ ?_ ?_ x hx
    · exact fun x hx => Or.inr (Or.inr hx)
    · intro processed x y hprocessed hx hy
      obtain ⟨c, hc, hnumbered, hy⟩ := DataFlow.mem_found_iff.mp hy
      have hcD : c ∈ D := hD.data x c hx ((mem_consumers_ownSetting_iff hf).mp hc)
        ((isNumbered_ownSetting_iff hf).mp hnumbered)
      rcases hy with rfl | ⟨hfused, hy⟩
      · exact hcD
      · obtain ⟨hfuses, hadjacent, hbranch⟩ := (fusedBranch?_ownSetting_iff hf).mp hfused
        -- the branch itself is processed already, so it is not found by fusion
        refine hD.fused hfuses c hcD y hadjacent hbranch ?_
        rintro rfl
        exact hy hprocessed
    · exact Or.inl rfl
    · intro x hx
      have hseed : x ∈ (f.ownSetting isa functionId).seeds branch
          ((f.ownSetting isa functionId).controlled block point) :=
        List.mem_cons_of_mem branch hx
      rcases (mem_seeds_iff hf).mp hseed with hx | hx | hx
      · exact Or.inl hx
      · exact Or.inr (Or.inl hx)
      · exact Or.inr (Or.inr (hcontrolled x hx))

/-- All code together is closed, so only code is found. -/
theorem isCode_of_mem_dependentInsts
    (hx : x ∈ f.dependentInsts isa functionId branch block point) : f.IsCode isa x := by
  refine mem_of_mem_dependentInsts hf (D := {id | f.IsCode isa id}) ?_ hx
  exact ⟨fun _ _ _ _ hcode => hcode, fun _ _ _ _ hcode => hcode,
    fun _ _ _ _ _ hbranch _ => hbranch.isCode⟩

/-- The numbers reported for a branch are those of the instructions that were found. -/
theorem mem_dependents_findingsOf_iff {n : Nat} :
    n ∈ ((f.ownSetting isa functionId).findingsOf branch block point).dependents ↔
      ∃ id ∈ f.dependentInsts isa functionId branch block point,
        (Numbering.ofFunc isa functionId f).number? id = some n :=
  (Numbering.agrees_ofFunc isa functionId f).mem_collect_iff
    (Numbering.nodup_order_ofFunc hf.nodup_ids)

/-- The control dependents are the numbers of the controlled instructions. -/
theorem mem_control_findingsOf_iff {n : Nat} :
    n ∈ ((f.ownSetting isa functionId).findingsOf branch block point).control ↔
      ∃ id ∈ (f.ownSetting isa functionId).controlled block point,
        (Numbering.ofFunc isa functionId f).number? id = some n :=
  (Numbering.agrees_ofFunc isa functionId f).mem_collect_iff
    (Numbering.nodup_order_ofFunc hf.nodup_ids)

/-- A branch reconverges at the immediate post-dominator of the block that owns it. -/
theorem point?_ownSetting_eq_some_iff (h : f.parent? x = some block) :
    (f.ownSetting isa functionId).point? block = some point ↔
      (Graph.exitGraph f.transfers).IsImmediate point block :=
  PostDominators.immediate?_eq_some_iff hf.wellListed (mem_transfers_of_parent? hf h)

/-- The branches that are analysed are the conditional branches whose block has an immediate
post-dominator. -/
theorem mem_branches_findings_iff {b : BranchDependents} :
    b ∈ (f.findings isa functionId).branches ↔ f.IsCondBranch b.inst ∧
      f.parent? b.inst = some b.block ∧
      (Graph.exitGraph f.transfers).IsImmediate b.point b.block ∧
      b = (f.ownSetting isa functionId).findingsOf b.inst b.block b.point := by
  have hbranches : (f.findings isa functionId).branches =
      ((branchSites f (f.ownSetting isa functionId).point?).map
        (f.ownSetting isa functionId).outcome).filterMap Sum.getLeft? := rfl
  simp only [hbranches, List.mem_filterMap, List.mem_map,
    mem_branchSites_iff_isCondBranch hf.consistent, Sum.getLeft?_eq_some_iff]
  constructor
  · rintro ⟨_, ⟨site, ⟨hsite, hparent, hbranch⟩, rfl⟩, houtcome⟩
    rw [Setting.outcome] at houtcome
    -- only a block with a point of reconvergence gives findings
    cases hp : site.point with
    | none => simp [hp] at houtcome
    | some point =>
      rw [hp] at houtcome
      obtain rfl := Sum.inl.inj houtcome
      exact ⟨hbranch, hparent,
        (point?_ownSetting_eq_some_iff hf hparent).mp (hsite.symm.trans hp), rfl⟩
  · rintro ⟨hbranch, hparent, himmediate, heq⟩
    refine ⟨_, ⟨⟨b.inst, b.block, some b.point⟩, ⟨?_, hparent, hbranch⟩, rfl⟩, ?_⟩
    · exact ((point?_ownSetting_eq_some_iff hf hparent).mpr himmediate).symm
    · exact congrArg Sum.inl heq.symm

/-- Every dependent is the number of an instruction. -/
theorem lt_size_of_mem_dependents {b : BranchDependents}
    (hb : b ∈ (f.findings isa functionId).branches) {n : Nat} (hn : n ∈ b.dependents) :
    n < (Numbering.ofFunc isa functionId f).size := by
  obtain ⟨-, -, -, heq⟩ := (mem_branches_findings_iff hf).mp hb
  rw [heq] at hn
  exact Numbering.lt_size_of_mem_collect hn

end Linked

section WellFormed

variable (hf : f.WellFormed)

include hf

/-- Nothing follows a conditional branch in its block. -/
theorem not_adjacent_of_isCondBranch {p : Inst BlockId → Bool} (h : f.IsCondBranch j) :
    ¬f.Adjacent p j k := by
  intro hadjacent
  obtain ⟨inst, hinst, hbranch⟩ := h
  have hend := hf.not_terminator_of_adjacent hadjacent hinst
  obtain ⟨opcode, operands, result, kind⟩ := inst
  cases kind with
  | branch => cases hend
  | op | jump | ret => cases hbranch

/-- The two searches together find a closed set. -/
theorem dependenceClosed_dependentInsts :
    f.DependenceClosed isa branch block point
      {id | id ∈ f.dependentInsts isa functionId branch block point} where
  controlled := by
    intro b hreach id hparent hcode
    exact List.mem_append_left _ ((mem_controlled_iff hf.toLinked).mpr ⟨b, hreach, hparent, hcode⟩)
  data := by
    intro x y hx hfeeds hcode
    have hconsumer : y ∈ (f.ownSetting isa functionId).consumers x :=
      (mem_consumers_ownSetting_iff hf.toLinked).mpr hfeeds
    have hnumbered : (f.ownSetting isa functionId).isNumbered y = true :=
      (isNumbered_ownSetting_iff hf.toLinked).mpr hcode
    refine List.mem_append_right _ (DataFlow.mem_closure_of_consumer ?_ hconsumer hnumbered)
    rw [mem_seeds_iff hf.toLinked, or_assoc, or_assoc]
    exact hx.imp_right fun hx => hx.imp_right List.mem_append.mp
  fused := by
    intro hfuses j hj k hadjacent hbranch hne
    -- the instruction before the branch was found by control or by data
    rcases List.mem_append.mp hj with hj | hj
    · -- a branch after a controlled instruction is in the same block
      obtain ⟨b, hreach, hparent, -⟩ := (mem_controlled_iff hf.toLinked).mp hj
      rw [parent?_eq_of_adjacent hf.toLinked hadjacent] at hparent
      exact List.mem_append_left _
        ((mem_controlled_iff hf.toLinked).mpr ⟨b, hreach, hparent, hbranch.isCode⟩)
    · obtain ⟨x, hx, c, hc, hnumbered, rfl | hj⟩ := DataFlow.exists_consumer_of_mem_closure hj
      · rcases DataFlow.mem_of_fusedBranch? hx hc hnumbered
          ((fusedBranch?_ownSetting_iff hf.toLinked).mpr ⟨hfuses, hadjacent, hbranch⟩) with hk | hk
        · -- of the seeds, only the branch itself and what it controls are branches
          rcases (mem_seeds_iff hf.toLinked).mp hk with rfl | ⟨hproducer, -⟩ | hk
          · exact absurd rfl hne
          · exact absurd hproducer (not_adjacent_of_isCondBranch hf hbranch)
          · exact List.mem_append_left _ hk
        · exact List.mem_append_right _ hk
      · -- `j` was found as a fused branch, and nothing follows a branch in its block
        obtain ⟨-, -, hjbranch⟩ := (fusedBranch?_ownSetting_iff hf.toLinked).mp hj
        exact absurd hadjacent (not_adjacent_of_isCondBranch hf hjbranch)

/-- What the two searches find together is the least closed set. -/
theorem isLeast_dependentInsts :
    IsLeast {D | f.DependenceClosed isa branch block point D}
      {id | id ∈ f.dependentInsts isa functionId branch block point} :=
  ⟨dependenceClosed_dependentInsts hf, fun _ hD _ hx => mem_of_mem_dependentInsts hf.toLinked hD hx⟩

end WellFormed

end Func

/-- For every branch that the analysis of a listing reports, the dependents are the numbers of the
least set of instructions closed under the rules of dependence. The branches reported are the
conditional branches whose block has an immediate post-dominator. -/
theorem dependents_iff_least_closed {text : String} {program : Program}
    (h : Listing.parse text = .ok program) (isa : Isa) :
    ∃ results, program.analyse isa = .ok results ∧
      results.length = program.functions.length ∧
      ∀ (i : Nat) (f : Func) (deps : Dependencies), program.functions[i]? = some f →
        results[i]? = some deps →
        (∀ id block point,
          (∃ b ∈ deps.branches, b.inst = id ∧ b.block = block ∧ b.point = point) ↔
            f.IsCondBranch id ∧ f.parent? id = some block ∧
              (Graph.exitGraph f.transfers).IsImmediate point block) ∧
        ∀ b ∈ deps.branches,
          (Numbering.ofFunc isa (functionId i) f).number? b.inst = some b.branch ∧
          ∃ D, IsLeast {D | f.DependenceClosed isa b.inst b.block b.point D} D ∧
            (∀ id ∈ D, ∃ n ∈ b.dependents,
              (Numbering.ofFunc isa (functionId i) f).number? id = some n) ∧
            (∀ n ∈ b.dependents, ∃ id ∈ D,
              (Numbering.ofFunc isa (functionId i) f).number? id = some n) ∧
            b.dependents.Pairwise (· < ·) := by
  have hwf := Listing.wellFormed_of_parse h
  refine ⟨_, Program.analyse_eq_ok hwf isa, by simp,
    fun i f deps hi hdeps => ?_⟩
  have hf : f.WellFormed := hwf f (List.mem_of_getElem? hi)
  rw [List.getElem?_mapIdx, hi, Option.map_some] at hdeps
  obtain rfl := Option.some.inj hdeps
  refine ⟨fun id block point => ?_, fun b hb => ?_⟩
  · constructor
    · rintro ⟨b, hb, rfl, rfl, rfl⟩
      obtain ⟨hbranch, hparent, himmediate, -⟩ := (Func.mem_branches_findings_iff hf.toLinked).mp hb
      exact ⟨hbranch, hparent, himmediate⟩
    · rintro ⟨hbranch, hparent, himmediate⟩
      refine ⟨(f.ownSetting isa (functionId i)).findingsOf id block point, ?_, rfl, rfl, rfl⟩
      exact (Func.mem_branches_findings_iff hf.toLinked).mpr ⟨hbranch, hparent, himmediate, rfl⟩
  · obtain ⟨hbranch, -, -, heq⟩ := (Func.mem_branches_findings_iff hf.toLinked).mp hb
    have hnumbered : ∀ id, f.IsCode isa id →
        ∃ n, (Numbering.ofFunc isa (functionId i) f).number? id = some n := fun id hcode =>
      (Numbering.exists_number?_iff hf.consistent).mpr hcode
    -- the reported numbers are those of the instructions found by the two searches
    have hcollect : ∀ n, n ∈ b.dependents ↔
        ∃ id ∈ f.dependentInsts isa (functionId i) b.inst b.block b.point,
          (Numbering.ofFunc isa (functionId i) f).number? id = some n := by
      intro n
      rw [heq]
      exact Func.mem_dependents_findingsOf_iff hf.toLinked
    refine ⟨?_, _, Func.isLeast_dependentInsts hf, ?_, fun n hn => (hcollect n).mp hn, ?_⟩
    · obtain ⟨n, hn⟩ := hnumbered b.inst hbranch.isCode
      have hnumber : b.branch =
          ((Numbering.ofFunc isa (functionId i) f).number? b.inst).getD 0 :=
        congrArg BranchDependents.branch heq
      rw [hnumber, hn, Option.getD_some]
    · intro id hid
      obtain ⟨n, hn⟩ := hnumbered id (Func.isCode_of_mem_dependentInsts hf.toLinked hid)
      exact ⟨n, (hcollect n).mpr ⟨id, hid, hn⟩, hn⟩
    · rw [heq]
      exact Numbering.pairwise_collect

/-- A listing in which a compare reads what a branch controls, and a loop branch is fused with the
compare. -/
def fusedListing : String :=
  "func @f \x7b\nentry:\n  br %c, then, join\nthen:\n  mov 1 -> %x\njoin:\n  cmp %x, 0\n" ++
    "  br join, done\ndone:\n  ret\n\x7d\n"

/-- The function of `fusedListing`. -/
def fusedFunc : Func :=
  .ofBlocks "@f"
    [("entry", [.branch (some (.value "%c")) 1 2]),
      ("then", [.op "mov" [.int 1] (some "%x")]),
      ("join", [.op "cmp" [.value "%x", .int 0] none, .branch none 2 3]),
      ("done", [.ret none])]

/-- The compare and the branch fused with it depend on the first branch of `fusedListing`, although
they are after its reconvergence point. -/
theorem dependents_iff_least_closed_fusedListing :
    Listing.parse fusedListing = .ok ⟨[fusedFunc]⟩ ∧
      ∃ D, IsLeast {D | fusedFunc.DependenceClosed .x86 0 0 2 D} D ∧
        (∀ id ∈ D, ∃ n ∈ [1, 2, 3],
          (Numbering.ofFunc .x86 (functionId 0) fusedFunc).number? id = some n) ∧
        ∀ n ∈ [1, 2, 3], ∃ id ∈ D,
          (Numbering.ofFunc .x86 (functionId 0) fusedFunc).number? id = some n := by
  have hparse : Listing.parse fusedListing = .ok ⟨[fusedFunc]⟩ := by decide +kernel
  have hrun : (Program.mk [fusedFunc]).analyse .x86 = .ok [⟨functionId 0, "@f",
      [⟨0, 0, 0, 2, [1], [2, 3], [1, 2, 3]⟩, ⟨3, 3, 2, 3, [2, 3], [], [2, 3]⟩], [],
      ⟨5, 2, 0, 3, 2⟩⟩] := by
    decide +kernel
  obtain ⟨results, hresults, -, hall⟩ := dependents_iff_least_closed hparse .x86
  obtain rfl := Except.ok.inj (hresults.symm.trans hrun)
  obtain ⟨-, hbranches⟩ := hall 0 _ _ rfl rfl
  obtain ⟨-, D, hD, hnumbers, hcovered, -⟩ := hbranches _ List.mem_cons_self
  exact ⟨hparse, D, hD, hnumbers, hcovered⟩

end Rejoin
