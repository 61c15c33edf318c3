import Mathlib.Data.List.Chain
import Rejoin.Dependence.Region
import Rejoin.Proofs.Flow.Graph
import Rejoin.Proofs.Machine.Building
import Rejoin.Proofs.Machine.WellFormed

/-!
# Regions in breadth-first order

The region of a branch, for any block and any point, whether they exist or not and wherever the
point lies. A way from the block to another is the list of blocks that control enters on it, and the
region holds the blocks at the end of a way that avoids the point. They are listed once each, and
those with a short way come first: `region_breadthFirst`.
-/

namespace Rejoin

namespace Graph

/-- Control can go from `x` to `y` and enters the blocks of `way`, at least one and never the
point. -/
structure IsWay (blocks : List (BlockId × Transfer BlockId)) (point x y : BlockId)
    (way : List BlockId) : Prop where
  /-- Control passes from each block to the next. -/
  chain : (x :: way).IsChain (Flows blocks)
  /-- The way ends in `y`. -/
  last : way.getLast? = some y
  /-- The point is not entered. -/
  avoids : point ∉ way

variable {blocks : List (BlockId × Transfer BlockId)} {point x y z : BlockId} {way : List BlockId}

/-- The shortest ways are single edges. -/
theorem isWay_singleton : IsWay blocks point x y [y] ↔ Flows blocks x y ∧ y ≠ point := by
  constructor
  · rintro ⟨hchain, -, havoids⟩
    exact ⟨by simpa using hchain, fun heq => havoids (by simp [heq])⟩
  · rintro ⟨hflows, hne⟩
    exact ⟨by simpa using hflows, rfl, by simpa using hne.symm⟩

/-- A longer way goes on from the end of a way. -/
theorem isWay_concat (hne : way ≠ []) :
    IsWay blocks point x z (way ++ [z]) ↔
      ∃ y, IsWay blocks point x y way ∧ Flows blocks y z ∧ z ≠ point := by
  have hlast : (x :: way).getLast? = way.getLast? := List.getLast?_cons_of_ne_nil hne
  constructor
  · rintro ⟨hchain, -, havoids⟩
    rw [← List.cons_append, List.isChain_append] at hchain
    obtain ⟨hway, -, hstep⟩ := hchain
    obtain ⟨y, hy⟩ : ∃ y, way.getLast? = some y := ⟨_, List.getLast?_eq_some_getLast hne⟩
    rw [List.mem_append, not_or, List.mem_singleton] at havoids
    exact ⟨y, ⟨hway, hy, havoids.1⟩, hstep y (hlast.trans hy) z rfl, Ne.symm havoids.2⟩
  · rintro ⟨y, ⟨hchain, hy, havoids⟩, hflows, hz⟩
    refine ⟨?_, List.getLast?_concat, ?_⟩
    · rw [← List.cons_append, List.isChain_append, hlast, hy]
      refine ⟨hchain, List.isChain_singleton z, ?_⟩
      rintro _ ⟨⟩ _ ⟨⟩
      exact hflows
    · rw [List.mem_append, not_or, List.mem_singleton]
      exact ⟨havoids, Ne.symm hz⟩

theorem IsWay.mem_left (h : IsWay blocks point x y way) : x ∈ blocks.map Prod.fst := by
  obtain ⟨hchain, hlast, -⟩ := h
  cases way with
  | nil => cases hlast
  | cons z way => exact (List.isChain_cons_cons.mp hchain).1.mem_left

section WellListed

variable (hb : WellListed blocks)

include hb

/-- Ways end at listed blocks. -/
theorem WellListed.mem_of_isWay (h : IsWay blocks point x y way) : y ∈ blocks.map Prod.fst := by
  obtain ⟨before, rfl⟩ := List.getLast?_eq_some_iff.mp h.last
  by_cases hne : before = []
  · subst hne
    exact hb.mem_right (isWay_singleton.mp h).1
  · obtain ⟨z, -, hflows, -⟩ := (isWay_concat hne).mp h
    exact hb.mem_right hflows

/-- A search that leaves out the point needs one edge less than the way from the block: the first
step of the way is into the row the search starts with. -/
theorem WellListed.entersAfter_place_iff {free : Array Bool} {n : Nat}
    (hsize : free.size = (ofBlocks blocks).edges.size)
    (hfree : ∀ z ∈ blocks.map Prod.fst, IsFree free (place blocks z) ↔ z ≠ point)
    (hx : x ∈ blocks.map Prod.fst) (hy : y ∈ blocks.map Prod.fst) :
    (ofBlocks blocks).edges.EntersAfter free ((ofBlocks blocks).edges.next (place blocks x)) n
        (place blocks y) ↔
      ∃ way, IsWay blocks point x y way ∧ way.length = n + 1 := by
  -- an edge into a free position is a step of control that does not enter the point
  have hstep {p q : Nat} (hq : q ∈ (ofBlocks blocks).edges.next p) (hqfree : IsFree free q) :
      Flows blocks (blockAt blocks p) (blockAt blocks q) ∧ blockAt blocks q ≠ point := by
    have hlt : q < (ofBlocks blocks).edges.size := hsize ▸ hqfree.lt_size
    refine ⟨hb.flows_blockAt ⟨hq, hlt⟩, (hfree _ (hb.blockAt_mem hlt)).mp ?_⟩
    rwa [hb.place_blockAt hlt]
  constructor
  · intro h
    rw [← blockAt_place hy]
    generalize place blocks y = q at h
    induction h with
    | start hq hqfree =>
      have hflows := hstep hq hqfree
      rw [blockAt_place hx] at hflows
      exact ⟨[_], isWay_singleton.mpr hflows, rfl⟩
    | step _ hq hqfree ih =>
      obtain ⟨way, hway, hlength⟩ := ih
      have hne : way ≠ [] := List.ne_nil_of_length_eq_add_one hlength
      exact ⟨_, (isWay_concat hne).mpr ⟨_, hway, hstep hq hqfree⟩, by simp [hlength]⟩
  · rintro ⟨way, hway, hlength⟩
    obtain ⟨before, rfl⟩ := List.getLast?_eq_some_iff.mp hway.last
    -- induction on the number of edges, along the way from its start
    induction n generalizing before y with
    | zero =>
      obtain rfl : before = [] := by simpa using hlength
      obtain ⟨hflows, hne⟩ := isWay_singleton.mp hway
      exact .start (hb.edge_place hflows).1 ((hfree y hy).mpr hne)
    | succ n ih =>
      have hlong : before.length = n + 1 := by simpa using hlength
      have hbefore : before ≠ [] := List.ne_nil_of_length_eq_add_one hlong
      obtain ⟨z, hz, hflows, hne⟩ := (isWay_concat hbefore).mp hway
      obtain ⟨early, rfl⟩ := List.getLast?_eq_some_iff.mp hz.last
      exact .step (ih hflows.mem_left early hz hlong) (hb.edge_place hflows).1
        ((hfree y hy).mpr hne)

theorem WellListed.nodup_region (x point : BlockId) : ((ofBlocks blocks).region x point).Nodup := by
  by_cases hx : x ∈ blocks.map Prod.fst
  · obtain ⟨free, -, -, hregion⟩ := hb.region_eq hx point
    rw [hregion, blocksAt]
    refine (Digraph.nodup_sweep _ _ _).filterMap fun p q z hp hq => ?_
    exact (hb.getElem?_ids.mp hp).2.symm.trans (hb.getElem?_ids.mp hq).2
  · rw [region, hb.position?_of_not_mem hx]
    exact List.nodup_nil

/-- The blocks at some places are those whose place is one of them. -/
theorem WellListed.mem_blocksAt_iff {positions : List Nat} :
    y ∈ (ofBlocks blocks).blocksAt positions ↔
      y ∈ blocks.map Prod.fst ∧ place blocks y ∈ positions := by
  simp only [blocksAt, List.mem_filterMap, hb.getElem?_ids]
  constructor
  · rintro ⟨q, hq, hy, rfl⟩
    exact ⟨hy, hq⟩
  · rintro ⟨hy, hq⟩
    exact ⟨place blocks y, hq, hy, rfl⟩

/-- The blocks of a region are the ends of the ways that avoid the point. -/
theorem WellListed.mem_region_iff_exists_isWay :
    y ∈ (ofBlocks blocks).region x point ↔ ∃ way, IsWay blocks point x y way := by
  by_cases hx : x ∈ blocks.map Prod.fst
  · obtain ⟨free, hsize, hfree, hregion⟩ := hb.region_eq hx point
    rw [hregion, hb.mem_blocksAt_iff, Digraph.mem_sweep_iff hsize,
      Digraph.enters_iff_exists_entersAfter]
    constructor
    · rintro ⟨hy, n, hn⟩
      obtain ⟨way, hway, -⟩ := (hb.entersAfter_place_iff hsize hfree hx hy).mp hn
      exact ⟨way, hway⟩
    · rintro ⟨way, hway⟩
      have hy := hb.mem_of_isWay hway
      obtain ⟨before, rfl⟩ := List.getLast?_eq_some_iff.mp hway.last
      exact ⟨hy, before.length,
        (hb.entersAfter_place_iff hsize hfree hx hy).mpr ⟨_, hway, by simp⟩⟩
  · rw [region, hb.position?_of_not_mem hx]
    refine iff_of_false List.not_mem_nil ?_
    rintro ⟨way, hway⟩
    exact hx hway.mem_left

/-- Of two blocks of a region, the one with the shorter way comes first. -/
theorem WellListed.exists_distance_region (x point : BlockId) :
    ∃ distance : BlockId → Nat,
      (∀ y ∈ (ofBlocks blocks).region x point,
        IsLeast {n | ∃ way, IsWay blocks point x y way ∧ way.length = n} (distance y)) ∧
      ((ofBlocks blocks).region x point).Pairwise fun y z => distance y ≤ distance z := by
  by_cases hx : x ∈ blocks.map Prod.fst
  · obtain ⟨free, hsize, hfree, hregion⟩ := hb.region_eq hx point
    -- the search starts from the successors, so its distances are those of ways without their first
    -- step
    obtain ⟨distance, hleast, hpairwise⟩ := Digraph.exists_distance_sweep
      (ofBlocks blocks).edges free ((ofBlocks blocks).edges.next (place blocks x))
    refine ⟨fun y => distance (place blocks y) + 1, fun y hy => ?_, ?_⟩
    · rw [hregion, hb.mem_blocksAt_iff] at hy
      obtain ⟨hlisted, hsweep⟩ := hy
      obtain ⟨hafter, hlower⟩ := hleast _ hsweep
      have hways {n : Nat} := hb.entersAfter_place_iff (n := n) hsize hfree hx hlisted
      refine ⟨hways.mp hafter, ?_⟩
      rintro n ⟨way, hway, rfl⟩
      cases way with
      | nil => cases hway.last
      | cons z way => exact Nat.succ_le_succ (hlower (hways.mpr ⟨_, hway, rfl⟩))
    · rw [hregion, blocksAt, List.pairwise_filterMap]
      refine hpairwise.imp fun {p q} hpq y hy z hz => Nat.succ_le_succ ?_
      rwa [(hb.getElem?_ids.mp hy).2, (hb.getElem?_ids.mp hz).2]
  · rw [region, hb.position?_of_not_mem hx]
    exact ⟨fun _ => 0, fun y hy => absurd hy List.not_mem_nil, List.Pairwise.nil⟩

end WellListed

end Graph

open Rejoin.Graph

variable {f : Func} {g : Graph}

/-- The control flow of a function that has a graph is a list of distinct blocks with listed
targets. -/
theorem Func.Consistent.wellListed_of_ofBlocks? (hf : f.Consistent)
    (hg : Graph.ofBlocks? f.transfers = some g) :
    WellListed f.transfers ∧ g = Graph.ofBlocks f.transfers := by
  rw [Graph.ofBlocks?, Option.ite_none_right_eq_some, Option.some.injEq] at hg
  obtain ⟨hlisted, rfl⟩ := hg
  simp only [targetsListed, List.all_eq_true, List.contains_iff_mem] at hlisted
  refine ⟨⟨?_, hlisted⟩, rfl⟩
  rw [hf.map_fst_transfers]
  exact List.nodup_range

namespace Region

/-- The instructions of a region are those of its blocks. -/
theorem insts_ofBranch (g : Graph) (f : Func) (block point : BlockId) :
    (ofBranch g f block point).insts = (g.region block point).flatMap fun b =>
      ((f.block? b).map fun owner => owner.insts.map Prod.fst).getD [] := by
  rw [ofBranch]
  refine List.flatMap_congr fun b _ => ?_
  cases f.block? b with
  | none => rfl
  | some owner => rfl

/-- Where the blocks of a region exist, its instructions are those of their contents. -/
theorem exists_contents (hf : f.Consistent) {block point : BlockId}
    (h : ∀ b ∈ (ofBranch g f block point).blocks, b < f.blocks.length) :
    ∃ contents, List.Forall₂ (fun b content => f.block? b = some content)
        (ofBranch g f block point).blocks contents ∧
      (ofBranch g f block point).insts =
        contents.flatMap fun content => content.insts.map Prod.fst := by
  rw [insts_ofBranch]
  simp only [ofBranch] at h ⊢
  generalize g.region block point = blocks at h ⊢
  induction blocks with
  | nil => exact ⟨[], .nil, rfl⟩
  | cons b rest ih =>
    obtain ⟨hb, hrest⟩ := List.forall_mem_cons.mp h
    obtain ⟨contents, hcontents, hinsts⟩ := ih hrest
    have hblock : f.block? b = some f.blocks[b] := by
      rw [hf.block?_eq_getElem?, List.getElem?_eq_getElem hb]
    refine ⟨f.blocks[b] :: contents, .cons hblock hcontents, ?_⟩
    rw [List.flatMap_cons, List.flatMap_cons, hinsts, hblock, Option.map_some, Option.getD_some]

/-- A region that has no block twice has no instruction twice. -/
theorem nodup_insts (hf : f.Consistent) {block point : BlockId}
    (h : (ofBranch g f block point).blocks.Nodup) : (ofBranch g f block point).insts.Nodup := by
  rw [insts_ofBranch, List.nodup_flatMap]
  refine ⟨fun b _ => ?_, h.imp fun {a b} hne x ha hb => hne ?_⟩
  · cases hb : f.block? b with
    | none => exact List.nodup_nil
    | some owner => exact Func.nodup_ids_of_mem hf (Func.mem_blocks_of_block? hb)
  · -- an instruction of both blocks has one owner only
    have hfirst := (Func.mem_ids_of_block?_iff hf).mp ha
    have hsecond := (Func.mem_ids_of_block?_iff hf).mp hb
    exact Option.some.inj (hfirst.symm.trans hsecond)

end Region

/-- For a function with a graph and any two blocks, existing or not, the region lists without
repetition the blocks that control can enter before it enters the point, in the order of their
distance, and all their instructions block by block. -/
theorem region_breadthFirst (hf : f.Built) (hg : Graph.ofBlocks? f.transfers = some g)
    (block point : BlockId) :
    (Region.ofBranch g f block point).blocks.Nodup ∧
      point ∉ (Region.ofBranch g f block point).blocks ∧
      (∀ x, x ∈ (Region.ofBranch g f block point).blocks ↔
        ∃ way, IsWay f.transfers point block x way) ∧
      (∃ distance : BlockId → Nat,
        (∀ x ∈ (Region.ofBranch g f block point).blocks,
          IsLeast {n | ∃ way, IsWay f.transfers point block x way ∧ way.length = n}
            (distance x)) ∧
        ((Region.ofBranch g f block point).blocks.map distance).Pairwise (· ≤ ·)) ∧
      (∃ contents, List.Forall₂ (fun b content => f.block? b = some content)
          (Region.ofBranch g f block point).blocks contents ∧
        (Region.ofBranch g f block point).insts =
          contents.flatMap fun content => content.insts.map Prod.fst) ∧
      (Region.ofBranch g f block point).insts.Nodup := by
  have hcons := hf.consistent
  obtain ⟨hb, rfl⟩ := hcons.wellListed_of_ofBlocks? hg
  have hnodup := hb.nodup_region block point
  have hmem (x : BlockId) : x ∈ (ofBlocks f.transfers).region block point ↔ _ :=
    hb.mem_region_iff_exists_isWay
  refine ⟨hnodup, fun hpoint => ?_, hmem, ?_, Region.exists_contents hcons fun b hin => ?_,
    Region.nodup_insts hcons hnodup⟩
  · obtain ⟨way, hway⟩ := (hmem point).mp hpoint
    exact hway.avoids (List.mem_of_getLast? hway.last)
  · obtain ⟨distance, hleast, hpairwise⟩ := hb.exists_distance_region block point
    exact ⟨distance, hleast, List.pairwise_map.mpr hpairwise⟩
  · obtain ⟨way, hway⟩ := (hmem b).mp hin
    have hlisted := hb.mem_of_isWay hway
    rwa [hcons.map_fst_transfers, List.mem_range] at hlisted

/-- A function that counts up to ten in a loop. -/
def countingFunc : Func :=
  .ofBlocks "@f"
    [("entry", [.jump 1]),
      ("head", [.op "icmp.lt" [.value "%i", .int 10] (some "%c"),
        .branch (some (.value "%c")) 2 3]),
      ("body", [.op "add" [.value "%i", .int 1] (some "%i"), .jump 1]),
      ("exit", [.ret none])]

/-- The head of the loop is in its own region, behind the body, and so are its instructions. The
entry is not, since nothing leads back to it. -/
theorem region_breadthFirst_countingFunc :
    countingFunc.Built ∧ ∃ g, Graph.ofBlocks? countingFunc.transfers = some g ∧
      Region.ofBranch g countingFunc 1 3 = ⟨[2, 1], [3, 4, 1, 2]⟩ ∧
      (¬∃ way, IsWay countingFunc.transfers 3 1 0 way) ∧
      ∃ distance : BlockId → Nat, distance 2 ≤ distance 1 ∧ ∀ x ∈ [2, 1],
        IsLeast {n | ∃ way, IsWay countingFunc.transfers 3 1 x way ∧ way.length = n}
          (distance x) := by
  have hf : countingFunc.Built := Func.built_ofBlocks _ _
  have hg : Graph.ofBlocks? countingFunc.transfers = some (ofBlocks countingFunc.transfers) := by
    decide +kernel
  have hregion : Region.ofBranch (ofBlocks countingFunc.transfers) countingFunc 1 3 =
      ⟨[2, 1], [3, 4, 1, 2]⟩ := by
    decide +kernel
  obtain ⟨-, -, hmem, ⟨distance, hleast, hsorted⟩, -⟩ := region_breadthFirst hf hg 1 3
  rw [hregion] at hmem hleast hsorted
  refine ⟨hf, _, hg, hregion, fun hway => ?_, distance, by simpa using hsorted, hleast⟩
  exact absurd ((hmem 0).mpr hway) (by decide)

end Rejoin
