import Rejoin.Dependence.Region
import Rejoin.Proofs.Flow.Graph

/-!
# Reconvergence points and regions

The facts on which the analysis of branches rests, for every list of distinct blocks whose
targets are listed, whatever its loops, unreachable blocks and exits:

* `immediate?_iff_nearest_postDominator` — the immediate post-dominator given to a block is the
  nearest of its other post-dominators, and a block without one has no other post-dominator;
* `mem_region_iff_controlDependent` — the region of a branch holds the blocks that are transitively
  control dependent on its block;
* `region_nested` — the reconvergence point lies ahead of every block of the region, and the regions
  of these blocks stay inside.
-/

open Relation

namespace Rejoin

open Rejoin.Graph

/-- Whether blocks are distinct and their targets listed can be decided. -/
instance (blocks : List (BlockId × Transfer BlockId)) : Decidable (WellListed blocks) :=
  decidable_of_iff
    ((blocks.map Prod.fst).Nodup ∧
      ∀ block ∈ blocks, ∀ target ∈ block.2.targets, target ∈ blocks.map Prod.fst)
    ⟨fun h => ⟨h.1, h.2⟩, fun h => ⟨h.nodup, h.listed⟩⟩

/-- The immediate post-dominator of a block is the other post-dominator that all others
post-dominate. It exists as soon as there is another post-dominator. -/
theorem immediate?_iff_nearest_postDominator {blocks : List (BlockId × Transfer BlockId)}
    (hb : WellListed blocks) :
    ∃ g, Graph.ofBlocks? blocks = some g ∧ ∀ x ∈ blocks.map Prod.fst,
      (∀ p, (PostDominators.ofGraph g).immediate? x = some p ↔
        p ∈ blocks.map Prod.fst ∧ p ≠ x ∧ (exitGraph blocks).PostDominates p x ∧
          ∀ q ∈ blocks.map Prod.fst, q ≠ x → (exitGraph blocks).PostDominates q x →
            (exitGraph blocks).PostDominates q p) ∧
      ((PostDominators.ofGraph g).immediate? x = none ↔
        ∀ q ∈ blocks.map Prod.fst, q ≠ x → ¬(exitGraph blocks).PostDominates q x) := by
  refine ⟨ofBlocks blocks, hb.ofBlocks?, fun x hx => ?_⟩
  -- a post-dominator lies on a path from `x`, so it is listed
  have hmem : ∀ q, (exitGraph blocks).PostDominates q x → q ∈ blocks.map Prod.fst := fun q h =>
    hb.mem_of_reflTransGen hx (h.reaches_and_leaves (hb.leaves hx)).1
  refine ⟨fun p => ?_, ?_⟩
  · rw [PostDominators.immediate?_eq_some_iff hb hx]
    constructor
    · rintro ⟨hne, hdom, hall⟩
      exact ⟨hmem p hdom, hne, hdom, fun q _ => hall q⟩
    · rintro ⟨-, hne, hdom, hall⟩
      exact ⟨hne, hdom, fun q hqx hq => hall q (hmem q hq) hqx hq⟩
  · rw [PostDominators.immediate?_eq_none_iff hb hx]
    constructor
    · intro h q _
      exact h q
    · intro h q hqx hq
      exact h q (hmem q hq) hqx hq

/-- In a function with an endless loop between blocks 1 and 2, the loop is an exit of its own and
block 1 its root. -/
theorem immediate?_iff_nearest_postDominator_endless :
    WellListed [(0, .branch 1 3), (1, .jump 2), (2, .jump 1), (3, .leave)] ∧
      ∃ g, Graph.ofBlocks? [(0, .branch 1 3), (1, .jump 2), (2, .jump 1), (3, .leave)] = some g ∧
        (PostDominators.ofGraph g).immediate? 0 = none ∧
        (PostDominators.ofGraph g).immediate? 2 = some 1 ∧
        ∀ q ∈ [0, 1, 2, 3], q ≠ 0 → ¬(exitGraph [(0, .branch 1 3), (1, .jump 2), (2, .jump 1),
          (3, .leave)]).PostDominates q 0 := by
  have hb : WellListed [(0, .branch 1 3), (1, .jump 2), (2, .jump 1), (3, .leave)] := by decide
  obtain ⟨g, hg, h⟩ := immediate?_iff_nearest_postDominator hb
  have hzero : (PostDominators.ofGraph g).immediate? 0 = none := by
    rw [hb.ofBlocks?, Option.some.injEq] at hg
    subst hg
    decide +kernel
  have htwo : (PostDominators.ofGraph g).immediate? 2 = some 1 := by
    rw [hb.ofBlocks?, Option.some.injEq] at hg
    subst hg
    decide +kernel
  exact ⟨hb, g, hg, hzero, htwo, (h 0 (by decide)).2.mp hzero⟩

/-- The region of a branch holds exactly the blocks that are transitively control dependent on the
block of the branch. -/
theorem mem_region_iff_controlDependent {blocks : List (BlockId × Transfer BlockId)}
    (hb : WellListed blocks) {g : Graph} (hg : Graph.ofBlocks? blocks = some g) (f : Func)
    {block point : BlockId} (hpoint : (PostDominators.ofGraph g).immediate? block = some point)
    (y : BlockId) :
    y ∈ (Region.ofBranch g f block point).blocks ↔
      TransGen (exitGraph blocks).ControlDependent block y := by
  rw [hb.ofBlocks?, Option.some.injEq] at hg
  subst hg
  have hblock : block ∈ blocks.map Prod.fst := by
    by_contra hnot
    simp [PostDominators.immediate?, PostDominators.ofGraph, hb.position?_of_not_mem hnot]
      at hpoint
  have himm := (PostDominators.immediate?_eq_some_iff hb hblock).mp hpoint
  have hleaves : ∀ a b, (exitGraph blocks).Edge a b → (exitGraph blocks).Leaves b :=
    fun a b hab => hb.leaves (hb.mem_right hab)
  rw [Region.ofBranch, hb.mem_region_iff, ExitGraph.transGen_avoiding_iff hleaves himm]

/-- The region of a loop's branch holds the body and, through the edge back, the head itself. -/
theorem mem_region_iff_controlDependent_loop :
    ∃ g, Graph.ofBlocks? [(0, .jump 1), (1, .branch 2 3), (2, .jump 1), (3, .leave)] = some g ∧
      (PostDominators.ofGraph g).immediate? 1 = some 3 ∧
      (Region.ofBranch g { name := "@f" } 1 3).blocks = [2, 1] ∧
      ∀ y, y ∈ [2, 1] ↔ TransGen (exitGraph [(0, .jump 1), (1, .branch 2 3), (2, .jump 1),
        (3, .leave)]).ControlDependent 1 y := by
  have hb : WellListed [(0, .jump 1), (1, .branch 2 3), (2, .jump 1), (3, .leave)] := by decide
  have hpoint : (PostDominators.ofGraph (ofBlocks
      [(0, .jump 1), (1, .branch 2 3), (2, .jump 1), (3, .leave)])).immediate? 1 = some 3 := by
    decide +kernel
  have hregion : (Region.ofBranch (ofBlocks
      [(0, .jump 1), (1, .branch 2 3), (2, .jump 1), (3, .leave)]) { name := "@f" } 1 3).blocks =
        [2, 1] := by
    decide +kernel
  refine ⟨_, hb.ofBlocks?, hpoint, hregion, fun y => ?_⟩
  rw [← mem_region_iff_controlDependent hb hb.ofBlocks? { name := "@f" } hpoint y, hregion]

/-- Regions are nested. The reconvergence point of a branch strictly post-dominates every block of
its region, so none of them leaves the function and all of them lead to the point. A block of the
region has an immediate post-dominator, which is the point or in the region, and the region up to it
is part of the region of the branch. -/
theorem region_nested {blocks : List (BlockId × Transfer BlockId)} (hb : WellListed blocks)
    {g : Graph} (hg : Graph.ofBlocks? blocks = some g) (f : Func) {block point x : BlockId}
    (hpoint : (PostDominators.ofGraph g).immediate? block = some point)
    (hx : x ∈ (Region.ofBranch g f block point).blocks) :
    (point ≠ x ∧ (exitGraph blocks).PostDominates point x) ∧
      ((x, .leave) ∉ blocks ∧ ReflTransGen (Flows blocks) x point) ∧
      ∃ inner, (PostDominators.ofGraph g).immediate? x = some inner ∧
        (inner = point ∨ inner ∈ (Region.ofBranch g f block point).blocks) ∧
        (Region.ofBranch g f x inner).blocks ⊆ (Region.ofBranch g f block point).blocks := by
  rw [hb.ofBlocks?, Option.some.injEq] at hg
  subst hg
  have himm := PostDominators.isImmediate_of_immediate? hb hpoint
  have hreach := hb.mem_region_iff.mp hx
  have hlisted : x ∈ blocks.map Prod.fst := by
    obtain ⟨v, -, hedge, -⟩ := TransGen.tail'_iff.mp hreach
    exact hb.mem_right hedge
  have hleaves := hb.leaves hlisted
  -- what the branch leads to without passing the point is post-dominated by the point
  obtain ⟨hne, hdom⟩ := ExitGraph.postDominates_of_transGen himm.1 himm.2.1 hreach
  have hpath : ReflTransGen (Flows blocks) x point := (hdom.reaches_and_leaves hleaves).1
  obtain ⟨inner, hinner⟩ := ExitGraph.exists_isImmediate hleaves hne hdom
  refine ⟨⟨hne, hdom⟩, ⟨fun hleave => ?_, hpath⟩, inner,
    (PostDominators.immediate?_eq_some_iff hb hlisted).mpr hinner, ?_, fun y hy => ?_⟩
  · -- the way to the point starts with a step
    rcases hpath.cases_head with heq | ⟨v, hflow, -⟩
    · exact hne heq.symm
    · exact hb.not_flows_of_leave hleave hflow
  · refine (hinner.eq_or_reaches hleaves hne hdom).imp_right fun hway => ?_
    exact hb.mem_region_iff.mpr (hreach.trans_left hway)
  · exact hb.mem_region_iff.mpr (ExitGraph.transGen_avoiding_of_nested
      (fun a b hab => hb.leaves (hb.mem_right hab)) himm.1 himm.2.1 hreach hinner
      (hb.mem_region_iff.mp hy))

/-- The region of block 0 is a loop that leads back to block 0. Inside it block 1 branches, and its
ways rejoin in block 4 before the loop goes round or ends. -/
theorem region_nested_loop :
    ∃ g, Graph.ofBlocks? [(0, .branch 1 5), (1, .branch 2 3), (2, .jump 4), (3, .jump 4),
        (4, .branch 0 5), (5, .leave)] = some g ∧
      (PostDominators.ofGraph g).immediate? 0 = some 5 ∧
      (Region.ofBranch g { name := "@f" } 0 5).blocks = [1, 2, 3, 4, 0] ∧
      (PostDominators.ofGraph g).immediate? 1 = some 4 ∧ 4 ∈ [1, 2, 3, 4, 0] ∧
      (Region.ofBranch g { name := "@f" } 1 4).blocks = [2, 3] ∧ [2, 3] ⊆ [1, 2, 3, 4, 0] := by
  have hb : WellListed [(0, .branch 1 5), (1, .branch 2 3), (2, .jump 4), (3, .jump 4),
      (4, .branch 0 5), (5, .leave)] := by decide
  have hpoint : (PostDominators.ofGraph (ofBlocks [(0, .branch 1 5), (1, .branch 2 3), (2, .jump 4),
      (3, .jump 4), (4, .branch 0 5), (5, .leave)])).immediate? 0 = some 5 := by
    decide +kernel
  have hregion : (Region.ofBranch (ofBlocks [(0, .branch 1 5), (1, .branch 2 3), (2, .jump 4),
      (3, .jump 4), (4, .branch 0 5), (5, .leave)]) { name := "@f" } 0 5).blocks =
        [1, 2, 3, 4, 0] := by
    decide +kernel
  have hinner : (Region.ofBranch (ofBlocks [(0, .branch 1 5), (1, .branch 2 3), (2, .jump 4),
      (3, .jump 4), (4, .branch 0 5), (5, .leave)]) { name := "@f" } 1 4).blocks = [2, 3] := by
    decide +kernel
  obtain ⟨-, -, inner, himm, hmem, hsub⟩ := region_nested hb hb.ofBlocks? { name := "@f" } hpoint
    (x := 1) (by rw [hregion]; decide)
  have hfour : (PostDominators.ofGraph (ofBlocks [(0, .branch 1 5), (1, .branch 2 3), (2, .jump 4),
      (3, .jump 4), (4, .branch 0 5), (5, .leave)])).immediate? 1 = some 4 := by
    decide +kernel
  obtain rfl := Option.some.inj (himm.symm.trans hfour)
  rw [hregion] at hmem hsub
  rw [hinner] at hsub
  exact ⟨_, hb.ofBlocks?, hpoint, hregion, hfour, hmem.resolve_left (by decide), hinner, hsub⟩

end Rejoin
