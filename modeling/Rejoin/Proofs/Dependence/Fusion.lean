import Mathlib.Data.List.Find
import Rejoin.Proofs.Dependence.Accounting
import Rejoin.Proofs.Dependence.Dependents

/-!
# What fusion adds

The two instruction sets differ in the opcodes they take for annotations, and in that only x86 fuses
compares with branches. In a program where they agree on what is code, the second difference alone
is left: `fusion_only_adds_dependents` compares the two analyses branch by branch. Fusion is one
more rule of dependence, so the dependents without it are among those with it, and they are all of
them if they are closed under the rule already.

* `Func.SameCode` — two instruction sets agree on the code of a function;
* `Func.FusionClosed` — the rule of fusion alone;
* `DataFlow.closure_subset_of_not_fuses` — the search along data finds no less if there is fusion.
-/

namespace Rejoin

/-- Without fusion a search along data finds only what a search with fusion finds as well. -/
theorem DataFlow.closure_subset_of_not_fuses {plain fused : DataFlow}
    (hplain : plain.isa.fuses = false) (hconsumers : fused.consumers = plain.consumers)
    (hnumbering : fused.numbering = plain.numbering) (seeds : List InstId) :
    plain.closure seeds ⊆ fused.closure seeds := by
  have hnumbered : fused.isNumbered = plain.isNumbered := by
    ext id
    rw [isNumbered, isNumbered, hnumbering]
  -- whatever is worked through without fusion is a seed or found with fusion
  refine (runs_closure plain seeds).forall_mem
    (fun x => x ∈ seeds ∨ x ∈ fused.closure seeds) (fun y => y ∈ fused.closure seeds) ?_ ?_ ?_
  · exact fun x hx => Or.inr hx
  · intro processed x y _ hx hy
    obtain ⟨c, hc, hcnumbered, rfl | ⟨hfused, -⟩⟩ := mem_found_iff.mp hy
    · apply mem_closure_of_consumer hx
      · rwa [hconsumers]
      · rwa [hnumbered]
    · rw [fusedBranch?, hplain] at hfused
      cases hfused
  · exact fun x hx => Or.inl hx

/-- A search that asks its predicate of the same entries finds the same. -/
theorem findAfter_congr {p q : Inst BlockId → Bool} {insts : List (InstId × Inst BlockId)}
    (h : ∀ entry ∈ insts, p entry.2 = q entry.2) (x : InstId) :
    findAfter x p insts = findAfter x q insts := by
  rw [findAfter, findAfter]
  cases hdrop : insts.dropWhile (·.1 != x) with
  | nil => rfl
  | cons first later =>
    have hlater : ∀ entry ∈ later, p entry.2 = q entry.2 := by
      intro entry hentry
      apply h
      apply (List.dropWhile_sublist (·.1 != x)).subset
      rw [hdrop]
      exact List.mem_cons_of_mem _ hentry
    exact congrArg (Option.map Prod.fst) (List.find?_congr hlater)

namespace Func

/-! ## Agreement on code -/

/-- Two instruction sets take the same instructions of the function for code. -/
def SameCode (f : Func) (isa isa' : Isa) : Prop :=
  ∀ entry ∈ f.insts, isa.isSubstantive entry.2 = isa'.isSubstantive entry.2

/-- No ordinary instruction of the function is an annotation for x86 only. -/
def NoX86Annotation (f : Func) : Prop :=
  ∀ id opcode operands result, (id, Inst.op opcode operands result) ∈ f.insts →
    Isa.x86.isMeta opcode = true → Isa.generic.isMeta opcode = true

variable {f : Func} {isa isa' : Isa} {functionId : UInt32} {branch x : InstId}
  {block point : BlockId} {D : Set InstId}

/-- Without annotations for x86 only, the two instruction sets agree on what is code. -/
theorem NoX86Annotation.sameCode (h : f.NoX86Annotation) : f.SameCode .x86 .generic := by
  rintro ⟨id, inst⟩ hmem
  obtain ⟨opcode, operands, result, kind⟩ := inst
  cases kind with
  | op =>
    have hmeta : Isa.x86.isMeta opcode = Isa.generic.isMeta opcode := by
      rw [Bool.eq_iff_iff]
      constructor
      · exact h id opcode operands result hmem
      · intro hgeneric
        rw [Isa.isMeta] at hgeneric
        simp [Isa.isMeta, hgeneric]
    show (false || !Isa.x86.isMeta opcode) = (false || !Isa.generic.isMeta opcode)
    rw [hmeta]
  | branch | jump | ret => rfl

namespace SameCode

variable (h : f.SameCode isa isa')

include h

theorem symm : f.SameCode isa' isa :=
  fun entry hentry => (h entry hentry).symm

/-- The sets agree on each instruction that is looked up. -/
theorem isSubstantive_of_inst? {inst : Inst BlockId} (hinst : f.inst? x = some inst) :
    isa.isSubstantive inst = isa'.isSubstantive inst := by
  exact h (x, inst) (mem_insts_of_inst? hinst)

/-- The same instructions are code. -/
theorem isCode_iff : f.IsCode isa x ↔ f.IsCode isa' x := by
  apply exists_congr
  intro inst
  apply and_congr_right
  intro hinst
  rw [h.isSubstantive_of_inst? hinst]

/-- The instructions have the same numbers. -/
theorem numbering_eq : Numbering.ofFunc isa functionId f = Numbering.ofFunc isa' functionId f := by
  rw [Numbering.ofFunc, Numbering.ofFunc, Numbering.foldl_visit_eq, Numbering.foldl_visit_eq,
    List.filter_congr h]

theorem isSubstantive_of_owner? {owner : Block} (howner : f.owner? x = some owner) :
    ∀ entry ∈ owner.insts, isa.isSubstantive entry.2 = isa'.isSubstantive entry.2 := by
  obtain ⟨b, -, hb⟩ := Option.bind_eq_some_iff.mp howner
  exact fun entry hentry => h entry (mem_insts_iff.mpr ⟨owner, mem_blocks_of_block? hb, hentry⟩)

/-- The next instruction of code is the same. -/
theorem next?_eq (x : InstId) : f.next? x isa.isSubstantive = f.next? x isa'.isSubstantive := by
  apply Option.bind_congr
  intro owner howner
  exact findAfter_congr (h.isSubstantive_of_owner? howner) x

theorem prev?_eq (x : InstId) : f.prev? x isa.isSubstantive = f.prev? x isa'.isSubstantive := by
  apply Option.bind_congr
  intro owner howner
  apply findAfter_congr
  intro entry hentry
  exact h.isSubstantive_of_owner? howner entry (List.mem_reverse.mp hentry)

/-- A branch controls the same instructions. -/
theorem controlled_eq : (f.ownSetting isa functionId).controlled block point =
    (f.ownSetting isa' functionId).controlled block point := by
  apply List.filter_congr
  intro id _
  show (f.inst? id).any isa.isSubstantive = (f.inst? id).any isa'.isSubstantive
  cases hinst : f.inst? id with
  | none => rfl
  | some inst => exact h.isSubstantive_of_inst? hinst

/-- The closure of a branch starts from the same seeds. -/
theorem seeds_eq (controlled : List InstId) :
    (f.ownSetting isa functionId).seeds branch controlled =
      (f.ownSetting isa' functionId).seeds branch controlled := by
  show branch :: (f.prev? branch isa.isSubstantive).toList ++ controlled =
    branch :: (f.prev? branch isa'.isSubstantive).toList ++ controlled
  rw [h.prev?_eq]

end SameCode

/-! ## The rule of fusion -/

/-- A conditional branch other than `branch` that is the next code after something in `D` is in
`D`. -/
def FusionClosed (f : Func) (isa : Isa) (branch : InstId) (D : Set InstId) : Prop :=
  ∀ j ∈ D, ∀ k, f.next? j isa.isSubstantive = some k → f.IsCondBranch k → k ≠ branch → k ∈ D

section WellFormed

variable (hf : f.WellFormed)

include hf

/-- An instruction set that fuses has the rule of fusion among its rules of dependence. -/
theorem DependenceClosed.fusionClosed (hD : f.DependenceClosed isa branch block point D)
    (hfuses : isa.fuses = true) : f.FusionClosed isa branch D := by
  intro j hj k hnext hbranch hne
  obtain ⟨hadjacent, -⟩ := (next?_eq_some_iff hf.consistent).mp hnext
  exact hD.fused hfuses j hj k hadjacent hbranch hne

/-- Instruction sets that agree on code have the same rules of dependence but for fusion. -/
theorem DependenceClosed.of_sameCode (hD : f.DependenceClosed isa branch block point D)
    (h : f.SameCode isa isa') (hfusion : isa'.fuses = true → f.FusionClosed isa branch D) :
    f.DependenceClosed isa' branch block point D where
  controlled := by
    intro b hreach id hparent hcode
    exact hD.controlled b hreach id hparent (h.isCode_iff.mpr hcode)
  data := by
    intro x y hx hfeeds hcode
    -- the nearest code before the branch is the same for both sets
    have hproducer : f.Adjacent isa.isSubstantive x branch ∧ f.IsCode isa x ↔
        f.Adjacent isa'.isSubstantive x branch ∧ f.IsCode isa' x := by
      have hprev := h.prev?_eq branch
      rw [IsCode, IsCode, ← prev?_eq_some_iff hf.consistent,
        ← prev?_eq_some_iff hf.consistent, hprev]
    rw [← hproducer] at hx
    exact hD.data x y hx hfeeds (h.isCode_iff.mpr hcode)
  fused := by
    intro hfuses j hj k hadjacent hbranch hne
    have hnext : f.next? j isa.isSubstantive = some k := by
      rw [h.next?_eq, next?_eq_some_iff hf.consistent]
      exact ⟨hadjacent, hbranch.isCode⟩
    exact hfusion hfuses j hj k hnext hbranch hne

/-- Fusion only adds dependents. -/
theorem dependentInsts_subset_of_sameCode (h : f.SameCode isa isa') (hplain : isa'.fuses = false) :
    f.dependentInsts isa' functionId branch block point ⊆
      f.dependentInsts isa functionId branch block point := by
  have hclosed : f.DependenceClosed isa' branch block point
      {x | x ∈ f.dependentInsts isa functionId branch block point} := by
    apply (dependenceClosed_dependentInsts hf).of_sameCode hf h
    exact fun hfuses => absurd (hplain.symm.trans hfuses) Bool.false_ne_true
  exact fun x hx => mem_of_mem_dependentInsts hf.toLinked hclosed hx

/-- Fusion adds nothing if the dependents without it are closed under fusion, and only then. -/
theorem mem_dependentInsts_iff_iff_fusionClosed (h : f.SameCode isa isa')
    (hfuses : isa.fuses = true) (hplain : isa'.fuses = false) :
    (∀ x, x ∈ f.dependentInsts isa functionId branch block point ↔
        x ∈ f.dependentInsts isa' functionId branch block point) ↔
      f.FusionClosed isa' branch
        {x | x ∈ f.dependentInsts isa' functionId branch block point} := by
  constructor
  · intro hsame j hj k hnext hbranch hne
    have hclosed : f.FusionClosed isa branch
        {x | x ∈ f.dependentInsts isa functionId branch block point} :=
      (dependenceClosed_dependentInsts hf).fusionClosed hf hfuses
    rw [← h.next?_eq] at hnext
    exact (hsame k).mp (hclosed j ((hsame j).mpr hj) k hnext hbranch hne)
  · intro hclosed x
    -- the rules with fusion hold of the set without it, so the least set is no larger
    have hall : f.DependenceClosed isa branch block point
        {x | x ∈ f.dependentInsts isa' functionId branch block point} :=
      (dependenceClosed_dependentInsts hf).of_sameCode hf h.symm fun _ => hclosed
    constructor
    · exact fun hx => mem_of_mem_dependentInsts hf.toLinked hall hx
    · exact fun hx => dependentInsts_subset_of_sameCode hf h hplain hx

/-- The instructions whose numbers are reported for a branch are those that were found. -/
theorem exists_mem_dependents_findingsOf_iff :
    (∃ n ∈ ((f.ownSetting isa functionId).findingsOf branch block point).dependents,
        (Numbering.ofFunc isa functionId f).number? x = some n) ↔
      x ∈ f.dependentInsts isa functionId branch block point := by
  have hnumbered : x ∈ f.dependentInsts isa functionId branch block point →
      ((Numbering.ofFunc isa functionId f).number? x).isSome = true := fun hx =>
    (isNumbered_ownSetting_iff hf.toLinked).mpr (isCode_of_mem_dependentInsts hf.toLinked hx)
  exact (Numbering.agrees_ofFunc isa functionId f).exists_mem_collect_iff.trans
    (and_iff_left_of_imp hnumbered)

end WellFormed

/-- How the dependents of a branch with fusion compare with those without it, where instructions
have the given numbers. -/
structure FusionAdds (f : Func) (numbering : Numbering) (fused plain : BranchDependents) :
    Prop where
  /-- The branch and where it reconverges are the same. -/
  site : fused.branch = plain.branch ∧ fused.inst = plain.inst ∧ fused.block = plain.block ∧
    fused.point = plain.point
  /-- Fusion plays no part in what a branch controls. -/
  control : fused.control = plain.control
  /-- What depends on data does so with fusion. -/
  data : plain.data ⊆ fused.data
  /-- What depends on the branch does so with fusion. -/
  dependents : plain.dependents ⊆ fused.dependents
  /-- Nothing is added if every other conditional branch that is the next code after a dependent is
  a dependent itself, and only then. -/
  dependents_eq_iff : fused.dependents = plain.dependents ↔
    f.FusionClosed .generic plain.inst
      {id | ∃ n ∈ plain.dependents, numbering.number? id = some n}

section WellFormed

variable (hf : f.WellFormed) (h : f.SameCode .x86 .generic)

include hf h

/-- The dependents are the same exactly when the same instructions depend on the branch. -/
theorem dependents_findingsOf_eq_iff :
    ((f.ownSetting .x86 functionId).findingsOf branch block point).dependents =
        ((f.ownSetting .generic functionId).findingsOf branch block point).dependents ↔
      ∀ x, x ∈ f.dependentInsts .x86 functionId branch block point ↔
        x ∈ f.dependentInsts .generic functionId branch block point := by
  constructor
  · intro heq x
    rw [← exists_mem_dependents_findingsOf_iff hf, ← exists_mem_dependents_findingsOf_iff hf, heq,
      h.numbering_eq]
  · intro hsame
    show (Numbering.ofFunc .x86 functionId f).collect _ =
      (Numbering.ofFunc .generic functionId f).collect _
    rw [h.numbering_eq]
    exact Numbering.collect_eq_of_mem_iff hsame

/-- For one branch, fusion adds dependents and changes nothing else. -/
theorem fusionAdds_findingsOf :
    f.FusionAdds (Numbering.ofFunc .generic functionId f)
      ((f.ownSetting .x86 functionId).findingsOf branch block point)
      ((f.ownSetting .generic functionId).findingsOf branch block point) := by
  have hnumbering : (f.ownSetting .x86 functionId).numbering =
      (f.ownSetting .generic functionId).numbering := h.numbering_eq
  have hclosure (seeds : List InstId) : (f.ownSetting .generic functionId).closure seeds ⊆
      (f.ownSetting .x86 functionId).closure seeds := by
    apply DataFlow.closure_subset_of_not_fuses
    · rfl
    · rfl
    · exact hnumbering
  refine ⟨⟨?_, rfl, rfl, rfl⟩, ?_, ?_, ?_, ?_⟩
  · simp only [Setting.findingsOf, Setting.numberOf, hnumbering]
  · simp only [Setting.findingsOf, hnumbering, h.controlled_eq]
  · simp only [Setting.findingsOf, hnumbering, h.controlled_eq, h.seeds_eq]
    exact Numbering.collect_subset (hclosure _)
  · simp only [Setting.findingsOf, hnumbering]
    exact Numbering.collect_subset (dependentInsts_subset_of_sameCode hf h rfl)
  · simp only [exists_mem_dependents_findingsOf_iff hf]
    rw [dependents_findingsOf_eq_iff hf h]
    exact mem_dependentInsts_iff_iff_fusionClosed hf h rfl rfl

/-- So it does for all branches, which are found in the same order. -/
theorem forall₂_fusionAdds_findings :
    List.Forall₂ (f.FusionAdds (Numbering.ofFunc .generic functionId f))
      (f.findings .x86 functionId).branches (f.findings .generic functionId).branches := by
  rw [findings, findings, Dependencies.branches_ofOutcomes, Dependencies.branches_ofOutcomes,
    List.forall₂_map_left_iff, List.forall₂_map_right_iff]
  -- the sites are those of the function, whatever the instruction set
  exact List.forall₂_same.mpr fun site _ => fusionAdds_findingsOf hf h

omit hf in
/-- The same branches are skipped, since control flow does not depend on the instruction set. -/
theorem skipped_findings_eq :
    (f.findings .x86 functionId).skipped = (f.findings .generic functionId).skipped := by
  have hnumber (id : InstId) : (f.ownSetting .x86 functionId).numberOf id =
      (f.ownSetting .generic functionId).numberOf id := by
    rw [Setting.numberOf, Setting.numberOf]
    exact congrArg (fun numbering => (Numbering.number? numbering id).getD 0) h.numbering_eq
  rw [findings, findings, Dependencies.skipped_ofOutcomes, Dependencies.skipped_ofOutcomes]
  simp only [hnumber]
  rfl

end WellFormed

end Func

/-- **Fusion only adds dependents.** In a listing where both instruction sets agree on annotations,
the x86 analysis reports the branches of the generic one, with the dependents that fusion adds. -/
theorem fusion_only_adds_dependents {text : String} {program : Program}
    (h : Listing.parse text = .ok program)
    (hcode : ∀ f ∈ program.functions, f.NoX86Annotation) :
    ∃ fused plain, program.analyse .x86 = .ok fused ∧ program.analyse .generic = .ok plain ∧
      fused.length = program.functions.length ∧ plain.length = program.functions.length ∧
      ∀ (i : Nat) (f : Func) (withFusion without : Dependencies),
        program.functions[i]? = some f → fused[i]? = some withFusion →
        plain[i]? = some without →
        List.Forall₂ (f.FusionAdds (Numbering.ofFunc .generic (functionId i) f))
            withFusion.branches without.branches ∧
          withFusion.skipped = without.skipped := by
  have hwf := Listing.wellFormed_of_parse h
  refine ⟨_, _, Program.analyse_eq_ok hwf .x86, Program.analyse_eq_ok hwf .generic, by simp,
    by simp, fun i f withFusion without hi hfused hplain => ?_⟩
  have hmem : f ∈ program.functions := List.mem_of_getElem? hi
  rw [List.getElem?_mapIdx, hi, Option.map_some] at hfused hplain
  obtain rfl := Option.some.inj hfused
  obtain rfl := Option.some.inj hplain
  exact ⟨Func.forall₂_fusionAdds_findings (hwf f hmem) (hcode f hmem).sameCode,
    Func.skipped_findings_eq (hcode f hmem).sameCode⟩

/-- Fusion adds the loop branch of `fusedListing` to the dependents of its first branch, because it
follows a dependent, and nothing to those of the loop branch. -/
theorem fusion_only_adds_dependents_fusedListing :
    (Listing.parse fusedListing = .ok ⟨[fusedFunc]⟩ ∧ fusedFunc.NoX86Annotation) ∧
      fusedFunc.FusionAdds (Numbering.ofFunc .generic (functionId 0) fusedFunc)
        ⟨0, 0, 0, 2, [1], [2, 3], [1, 2, 3]⟩ ⟨0, 0, 0, 2, [1], [2], [1, 2]⟩ ∧
      fusedFunc.FusionAdds (Numbering.ofFunc .generic (functionId 0) fusedFunc)
        ⟨3, 3, 2, 3, [2, 3], [], [2, 3]⟩ ⟨3, 3, 2, 3, [2, 3], [], [2, 3]⟩ := by
  have hparse : Listing.parse fusedListing = .ok ⟨[fusedFunc]⟩ := by decide +kernel
  have hcode : fusedFunc.NoX86Annotation := by
    have hall : ∀ entry ∈ fusedFunc.insts, Isa.x86.isMeta entry.2.opcode = false := by
      decide +kernel
    intro id opcode operands result hmem hmeta
    exact absurd hmeta (Bool.eq_false_iff.mp (hall _ hmem))
  have hfused : (Program.mk [fusedFunc]).analyse .x86 = .ok [⟨functionId 0, "@f",
      [⟨0, 0, 0, 2, [1], [2, 3], [1, 2, 3]⟩, ⟨3, 3, 2, 3, [2, 3], [], [2, 3]⟩], [],
      ⟨5, 2, 0, 3, 2⟩⟩] := by
    decide +kernel
  have hplain : (Program.mk [fusedFunc]).analyse .generic = .ok [⟨functionId 0, "@f",
      [⟨0, 0, 0, 2, [1], [2], [1, 2]⟩, ⟨3, 3, 2, 3, [2, 3], [], [2, 3]⟩], [],
      ⟨5, 2, 0, 3, 2⟩⟩] := by
    decide +kernel
  obtain ⟨fused, plain, hx86, hgeneric, -, -, hall⟩ :=
    fusion_only_adds_dependents hparse (List.forall_mem_singleton.mpr hcode)
  obtain rfl := Except.ok.inj (hx86.symm.trans hfused)
  obtain rfl := Except.ok.inj (hgeneric.symm.trans hplain)
  obtain ⟨hbranches, -⟩ := hall 0 _ _ _ rfl rfl rfl
  obtain ⟨hfirst, hrest⟩ := List.forall₂_cons.mp hbranches
  exact ⟨⟨hparse, hcode⟩, hfirst, (List.forall₂_cons.mp hrest).1⟩

end Rejoin
