import Rejoin.Proofs.Dependence.Dependents

/-!
# Nested branches

A branch that stands in the region of another one is never skipped, and what it controls is part of
that region. Its dependents are dependents of the outer branch too, with one exception: the inner
branch may be found to feed the compare before the outer one, and then the outer branch depends on
it by fusion, which it never does on itself. So the dependents of the inner branch are bounded by
those of the outer one and the outer branch itself: `nested_branch_bounds`.
-/

open Relation

namespace Rejoin

namespace Func

variable {f : Func} {isa : Isa} {functionId : UInt32} {branch inner x : InstId}
  {block point innerBlock innerPoint : BlockId}

section WellFormed

variable (hf : f.WellFormed)

include hf

/-- A branch without a reconvergence point is in a block that nothing else post-dominates. -/
theorem not_postDominates_of_mem_skipped {s : SkippedBranch}
    (hs : s ∈ (f.findings isa functionId).skipped) :
    f.parent? s.inst = some s.block ∧
      ∀ q, q ≠ s.block → ¬(Graph.exitGraph f.transfers).PostDominates q s.block := by
  have hskipped : (f.findings isa functionId).skipped =
      ((branchSites f (f.ownSetting isa functionId).point?).map
        (f.ownSetting isa functionId).outcome).filterMap Sum.getRight? := rfl
  simp only [hskipped, List.mem_filterMap, List.mem_map,
    mem_branchSites_iff_isCondBranch hf.consistent, Sum.getRight?_eq_some_iff] at hs
  obtain ⟨_, ⟨site, ⟨hsite, hparent, -⟩, rfl⟩, houtcome⟩ := hs
  rw [Setting.outcome] at houtcome
  cases hp : site.point with
  | some point => simp [hp] at houtcome
  | none =>
    rw [hp] at houtcome
    obtain rfl := Sum.inr.inj houtcome
    refine ⟨hparent, ?_⟩
    exact (PostDominators.immediate?_eq_none_iff hf.wellListed
      (mem_transfers_of_parent? hf.toLinked hparent)).mp (hsite.symm.trans hp)

end WellFormed

section Nested

variable (hf : f.WellFormed) (hpoint : (Graph.exitGraph f.transfers).IsImmediate point block)
  (hreach : TransGen ((Graph.exitGraph f.transfers).EdgeAvoiding point) block innerBlock)
  (hinner : (Graph.exitGraph f.transfers).IsImmediate innerPoint innerBlock)

include hf hpoint hreach hinner

/-- The blocks that a nested branch controls are controlled by the outer branch. -/
theorem transGen_of_nested {b : BlockId}
    (h : TransGen ((Graph.exitGraph f.transfers).EdgeAvoiding innerPoint) innerBlock b) :
    TransGen ((Graph.exitGraph f.transfers).EdgeAvoiding point) block b := by
  have hleaves : ∀ a b, (Graph.exitGraph f.transfers).Edge a b →
      (Graph.exitGraph f.transfers).Leaves b :=
    fun a b hab => hf.wellListed.leaves (hf.wellListed.mem_right hab)
  exact ExitGraph.transGen_avoiding_of_nested hleaves hpoint.1 hpoint.2.1 hreach hinner h

/-- A set closed under the rules of the outer branch is closed under those of the nested one, once
the outer branch is added to it. -/
theorem DependenceClosed.insert_of_nested {D : Set InstId} (hbranch : f.IsCondBranch branch)
    (hparent : f.parent? inner = some innerBlock) (hcode : f.IsCode isa inner)
    (hD : f.DependenceClosed isa branch block point D) :
    f.DependenceClosed isa inner innerBlock innerPoint (insert branch D) where
  controlled := by
    intro b hb id hid hidCode
    exact Or.inr (hD.controlled b (transGen_of_nested hf hpoint hreach hinner hb) id hid hidCode)
  data := by
    intro x y hx hfeeds hy
    refine Or.inr (hD.data x y ?_ hfeeds hy)
    rcases hx with rfl | ⟨hadjacent, hx⟩ | rfl | hx
    · exact Or.inr (Or.inr (hD.controlled _ hreach _ hparent hcode))
    · -- the code before the nested branch stands in its block, which the outer branch controls
      rw [← parent?_eq_of_adjacent hf.toLinked hadjacent] at hparent
      exact Or.inr (Or.inr (hD.controlled _ hreach x hparent hx))
    · exact Or.inl rfl
    · exact Or.inr (Or.inr hx)
  fused := by
    intro hfuses j hj k hadjacent hk _
    rcases hj with rfl | hj
    · exact absurd hadjacent (not_adjacent_of_isCondBranch hf hbranch)
    -- the outer branch has been put into the set, any other is found by its rule
    · by_cases hkb : k = branch
      · exact Or.inl hkb
      · exact Or.inr (hD.fused hfuses j hj k hadjacent hk hkb)

/-- The numbers of what a nested branch controls are among those of the outer branch. -/
theorem control_subset_of_nested :
    ((f.ownSetting isa functionId).findingsOf inner innerBlock innerPoint).control ⊆
      ((f.ownSetting isa functionId).findingsOf branch block point).control := by
  intro n hn
  obtain ⟨id, hid, hnumber⟩ := (mem_control_findingsOf_iff hf.toLinked).mp hn
  obtain ⟨b, hb, hparent, hcode⟩ := (mem_controlled_iff hf.toLinked).mp hid
  have houter := transGen_of_nested hf hpoint hreach hinner hb
  have hcontrolled : id ∈ (f.ownSetting isa functionId).controlled block point :=
    (mem_controlled_iff hf.toLinked).mpr ⟨b, houter, hparent, hcode⟩
  exact (mem_control_findingsOf_iff hf.toLinked).mpr ⟨id, hcontrolled, hnumber⟩

/-- The numbers of the dependents of a nested branch are among those of the outer branch and of its
dependents. -/
theorem dependents_subset_of_nested (hbranch : f.IsCondBranch branch)
    (hparent : f.parent? inner = some innerBlock) (hcode : f.IsCode isa inner) :
    ((f.ownSetting isa functionId).findingsOf inner innerBlock innerPoint).dependents ⊆
      ((f.ownSetting isa functionId).findingsOf branch block point).branch ::
        ((f.ownSetting isa functionId).findingsOf branch block point).dependents := by
  intro n hn
  obtain ⟨id, hid, hnumber⟩ := (mem_dependents_findingsOf_iff hf.toLinked).mp hn
  have houter : f.DependenceClosed isa branch block point
      {id | id ∈ f.dependentInsts isa functionId branch block point} :=
    dependenceClosed_dependentInsts hf
  -- the nested branch finds nothing outside a set closed under its rules
  have hclosed := houter.insert_of_nested hf hpoint hreach hinner hbranch hparent hcode
  rcases mem_of_mem_dependentInsts hf.toLinked hclosed hid with rfl | hmem
  · have heq : ((f.ownSetting isa functionId).findingsOf id block point).branch = n := by
      rw [Setting.findingsOf, Setting.numberOf, ownSetting, setting, hnumber]
      rfl
    exact heq ▸ List.mem_cons_self
  · refine List.mem_cons_of_mem _ ?_
    exact (mem_dependents_findingsOf_iff hf.toLinked).mpr ⟨id, hmem, hnumber⟩

end Nested

end Func

/-- Take two conditional branches of a function read from a listing, the second one with its number
among what the first controls. The second one is not skipped, it controls nothing that the first
does not control, and each of its dependents is a dependent of the first or the first itself. -/
theorem nested_branch_bounds {text : String} {program : Program}
    (h : Listing.parse text = .ok program) (isa : Isa) :
    ∃ results, program.analyse isa = .ok results ∧
      results.length = program.functions.length ∧
      ∀ (i : Nat) (f : Func) (deps : Dependencies), program.functions[i]? = some f →
        results[i]? = some deps →
        ∀ b ∈ deps.branches, ∀ (id : InstId) (n : Nat), f.IsCondBranch id →
          (Numbering.ofFunc isa (functionId i) f).number? id = some n → n ∈ b.control →
          (∀ s ∈ deps.skipped, s.inst ≠ id) ∧ (∃ d ∈ deps.branches, d.inst = id) ∧
          ∀ d ∈ deps.branches, d.inst = id →
            d.branch = n ∧ d.control ⊆ b.control ∧ d.dependents ⊆ b.branch :: b.dependents := by
  have hwf := Listing.wellFormed_of_parse h
  refine ⟨_, Program.analyse_eq_ok hwf isa, by simp, fun i f deps hi hdeps => ?_⟩
  have hf : f.WellFormed := hwf f (List.mem_of_getElem? hi)
  rw [List.getElem?_mapIdx, hi, Option.map_some] at hdeps
  obtain rfl := Option.some.inj hdeps
  intro b hb id n hid hnumber hn
  obtain ⟨hbranch, -, hpoint, hfindings⟩ := (Func.mem_branches_findings_iff hf.toLinked).mp hb
  rw [hfindings] at hn
  obtain ⟨id', hid', hnumber'⟩ := (Func.mem_control_findingsOf_iff hf.toLinked).mp hn
  obtain rfl : id' = id := (Numbering.agrees_ofFunc isa _ f).number?_inj hnumber' hnumber
  obtain ⟨inside, hreach, hparent, hcode⟩ := (Func.mem_controlled_iff hf.toLinked).mp hid'
  -- the point of the outer branch strictly post-dominates the block of the inner one
  obtain ⟨hne, hdom⟩ := ExitGraph.postDominates_of_transGen hpoint.1 hpoint.2.1 hreach
  refine ⟨?_, ?_, ?_⟩
  · rintro s hs rfl
    obtain ⟨hs', hnone⟩ := Func.not_postDominates_of_mem_skipped hf hs
    obtain rfl : s.block = inside := Option.some.inj (hs'.symm.trans hparent)
    exact hnone b.point hne hdom
  · obtain ⟨q, hq⟩ := ExitGraph.exists_isImmediate
      (hf.wellListed.leaves (Func.mem_transfers_of_parent? hf.toLinked hparent)) hne hdom
    exact ⟨(f.ownSetting isa (functionId i)).findingsOf id' inside q,
      (Func.mem_branches_findings_iff hf.toLinked).mpr ⟨hid, hparent, hq, rfl⟩, rfl⟩
  · rintro d hd rfl
    obtain ⟨-, hparent', hinner, heq⟩ := (Func.mem_branches_findings_iff hf.toLinked).mp hd
    obtain rfl : d.block = inside := Option.some.inj (hparent'.symm.trans hparent)
    rw [heq, hfindings]
    refine ⟨?_, Func.control_subset_of_nested hf hpoint hreach hinner,
      Func.dependents_subset_of_nested hf hpoint hreach hinner hbranch hparent hcode⟩
    rw [Setting.findingsOf, Setting.numberOf, Func.ownSetting, Func.setting, hnumber]
    rfl

/-- A listing in which a nested branch decides on what the compare before the outer branch reads. -/
def nestedListing : String :=
  "func @f \x7b\nentry:\n  cmp %x, 0\n  br inner, join\ninner:\n  br %c, then, join\nthen:\n" ++
    "  mov 1 -> %x\njoin:\n  ret\n\x7d\n"

/-- The function of `nestedListing`. -/
def nestedFunc : Func := .ofBlocks "@f"
  [("entry", [.op "cmp" [.value "%x", .int 0] none, .branch none 1 3]),
   ("inner", [.branch (some (.value "%c")) 2 3]),
   ("then", [.op "mov" [.int 1] (some "%x")]),
   ("join", [.ret none])]

/-- In `nestedListing` the inner branch, number 2, is controlled by the outer branch, number 1. The
outer branch depends on the inner one, but not on itself. -/
theorem nested_branch_bounds_nestedListing :
    Listing.parse nestedListing = .ok ⟨[nestedFunc]⟩ ∧
      (Program.mk [nestedFunc]).analyse .x86 = .ok [⟨functionId 0, "@f",
        [⟨1, 1, 0, 3, [2, 3], [0], [0, 2, 3]⟩, ⟨2, 2, 1, 3, [3], [0, 1], [0, 1, 3]⟩], [],
        ⟨5, 2, 0, 4, 1⟩⟩] ∧
      [3] ⊆ [2, 3] ∧ [0, 1, 3] ⊆ 1 :: [0, 2, 3] ∧ ¬[0, 1, 3] ⊆ [0, 2, 3] := by
  have hparse : Listing.parse nestedListing = .ok ⟨[nestedFunc]⟩ := by decide +kernel
  have hrun : (Program.mk [nestedFunc]).analyse .x86 = .ok [⟨functionId 0, "@f",
      [⟨1, 1, 0, 3, [2, 3], [0], [0, 2, 3]⟩, ⟨2, 2, 1, 3, [3], [0, 1], [0, 1, 3]⟩], [],
      ⟨5, 2, 0, 4, 1⟩⟩] := by
    decide +kernel
  obtain ⟨results, hresults, -, hall⟩ := nested_branch_bounds hparse .x86
  obtain rfl := Except.ok.inj (hresults.symm.trans hrun)
  have hinner : nestedFunc.IsCondBranch 2 := ⟨_, rfl, rfl⟩
  obtain ⟨-, -, hbounds⟩ := hall 0 _ _ rfl rfl _ List.mem_cons_self 2 2 hinner
    (by decide +kernel) (by decide)
  obtain ⟨-, hcontrol, hdependents⟩ :=
    hbounds _ (List.mem_cons_of_mem _ List.mem_cons_self) rfl
  exact ⟨hparse, hrun, hcontrol, hdependents, by decide⟩

end Rejoin
