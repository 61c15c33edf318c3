import Mathlib.Data.List.GetD
import Rejoin.Flow.Graph
import Rejoin.Proofs.Flow.PostDominance

/-!
# Control flow graphs of blocks

A control flow graph keeps its blocks by position. Here its operations are described by the blocks
themselves: `Graph.Flows` says where control may pass, `Graph.IsExitRoot` where it may end, and
`Graph.exitGraph` puts both together. For a list of distinct blocks with listed targets,
`Graph.WellListed`, a block is the same as its place in the list, so what is known of positions
carries over:

* `Graph.WellListed.mem_region_iff` — the blocks that are entered before a point;
* `PostDominators.immediate?_eq_some_iff` and `PostDominators.immediate?_eq_none_iff` — the
  immediate post-dominator of a block.
-/

open Relation

namespace Rejoin

/-- Where nothing is repeated, nothing is erased. -/
theorem eraseDups_of_nodup {α : Type} [BEq α] [LawfulBEq α] {as : List α} (h : as.Nodup) :
    as.eraseDups = as := by
  induction as with
  | nil => rfl
  | cons a as ih =>
    obtain ⟨ha, has⟩ := List.nodup_cons.mp h
    have hfilter : (as.filter fun b => !b == a) = as := by
      rw [List.filter_eq_self]
      intro b hb
      have hne : b ≠ a := fun heq => ha (heq ▸ hb)
      simpa using hne
    rw [List.eraseDups_cons, hfilter, ih has]

namespace Graph

variable {blocks : List (BlockId × Transfer BlockId)} {x y r : BlockId}

/-- Control may pass from block `x` to block `y`. -/
def Flows (blocks : List (BlockId × Transfer BlockId)) (x y : BlockId) : Prop :=
  ∃ transfer, (x, transfer) ∈ blocks ∧ y ∈ transfer.targets

/-- Two blocks are in one strongly connected component. -/
def SameComponent (blocks : List (BlockId × Transfer BlockId)) (x y : BlockId) : Prop :=
  ReflTransGen (Flows blocks) x y ∧ ReflTransGen (Flows blocks) y x

/-- The block is the first of its strongly connected component, and no edge leaves the
component. -/
structure IsExitRoot (blocks : List (BlockId × Transfer BlockId)) (r : BlockId) : Prop where
  /-- The block is listed. -/
  mem : r ∈ blocks.map Prod.fst
  /-- No edge leaves its component. -/
  closed : ∀ x y, SameComponent blocks r x → Flows blocks x y → SameComponent blocks r y
  /-- No block of its component is listed before it. -/
  first : ∀ x, SameComponent blocks r x →
    (blocks.map Prod.fst).idxOf r ≤ (blocks.map Prod.fst).idxOf x

/-- The graph of a list of blocks, with an edge to the virtual exit from every exit root. -/
def exitGraph (blocks : List (BlockId × Transfer BlockId)) : ExitGraph BlockId where
  Edge := Flows blocks
  Exit := IsExitRoot blocks

/-- The blocks are distinct, and every target is one of them. -/
structure WellListed (blocks : List (BlockId × Transfer BlockId)) : Prop where
  /-- No block is listed twice. -/
  nodup : (blocks.map Prod.fst).Nodup
  /-- Every target is listed. -/
  listed : ∀ block ∈ blocks, ∀ target ∈ block.2.targets, target ∈ blocks.map Prod.fst

/-- Control flows from listed blocks only. -/
theorem Flows.mem_left (h : Flows blocks x y) : x ∈ blocks.map Prod.fst := by
  obtain ⟨transfer, hmem, -⟩ := h
  exact List.mem_map_of_mem hmem

/-- Control flows to listed blocks only. -/
theorem WellListed.mem_right (hb : WellListed blocks) (h : Flows blocks x y) :
    y ∈ blocks.map Prod.fst := by
  obtain ⟨transfer, hmem, hy⟩ := h
  exact hb.listed _ hmem y hy

/-- Control passes nowhere from a block that leaves the function. -/
theorem WellListed.not_flows_of_leave (hb : WellListed blocks) (h : (x, .leave) ∈ blocks) :
    ¬Flows blocks x y := by
  rintro ⟨transfer, hmem, hy⟩
  -- the block is listed once, so this is how control leaves it
  obtain ⟨-, rfl⟩ := Prod.mk.inj (List.inj_on_of_nodup_map hb.nodup h hmem rfl)
  exact List.not_mem_nil hy

/-- The graph with exits is given by where control may pass and where it may end. -/
theorem exitGraph_congr {blocks' : List (BlockId × Transfer BlockId)}
    (hflows : ∀ x y, Flows blocks' x y ↔ Flows blocks x y)
    (hroots : ∀ r, IsExitRoot blocks' r ↔ IsExitRoot blocks r) :
    exitGraph blocks' = exitGraph blocks := by
  rw [exitGraph, exitGraph, ExitGraph.mk.injEq]
  exact ⟨funext fun x => funext fun y => propext (hflows x y), funext fun r => propext (hroots r)⟩

/-- The graph with exits is given by the listed blocks, their order and where control may pass. -/
theorem exitGraph_eq_of_flows {blocks' : List (BlockId × Transfer BlockId)}
    (hfst : blocks'.map Prod.fst = blocks.map Prod.fst)
    (hflows : ∀ x y, Flows blocks' x y ↔ Flows blocks x y) :
    exitGraph blocks' = exitGraph blocks := by
  have heq : Flows blocks' = Flows blocks := by
    funext x y
    exact propext (hflows x y)
  refine exitGraph_congr hflows fun r => ⟨?_, ?_⟩
  · rintro ⟨hmem, hclosed, hfirst⟩
    simp only [SameComponent, heq, hfst] at hmem hclosed hfirst
    exact ⟨hmem, hclosed, hfirst⟩
  · rintro ⟨hmem, hclosed, hfirst⟩
    simp only [SameComponent, ← heq, ← hfst] at hmem hclosed hfirst
    exact ⟨hmem, hclosed, hfirst⟩

/-! ## Nodes and targets of the graph -/

/-- The loop that erases repetitions keeps the element it holds, those to come and those it has put
aside. -/
private theorem mem_eraseRepsBy_loop (a : BlockId) (as acc : List BlockId) :
    y ∈ List.eraseRepsBy.loop (· == ·) a as acc ↔ y = a ∨ y ∈ as ∨ y ∈ acc := by
  induction as generalizing a acc with
  | nil =>
    simp only [List.eraseRepsBy.loop, List.mem_reverse, List.mem_cons, List.not_mem_nil, false_or]
  | cons b as ih =>
    rw [List.eraseRepsBy.loop]
    cases hab : a == b with
    | true =>
      obtain rfl : a = b := by simpa using hab
      rw [ih, List.mem_cons, or_assoc, or_self_left]
    | false =>
      rw [ih]
      simp only [List.mem_cons]
      tauto

/-- Erasing repetitions leaves the elements as they are. -/
private theorem mem_eraseReps (as : List BlockId) : y ∈ as.eraseReps ↔ y ∈ as := by
  cases as with
  | nil => rfl
  | cons a as =>
    rw [List.eraseReps, List.eraseRepsBy, mem_eraseRepsBy_loop]
    simp

/-- The targets of a block are the blocks to which control may pass from it. -/
theorem mem_targets_iff : y ∈ targets blocks x ↔ Flows blocks x y := by
  simp only [targets, mem_eraseReps, List.mem_append, List.mem_filterMap, List.mem_map,
    List.mem_filter, List.mem_reverse, beq_iff_eq]
  constructor
  · rintro ((⟨_, ⟨⟨_, transfer⟩, ⟨hmem, rfl⟩, rfl⟩, ht⟩ |
      ⟨_, ⟨⟨_, transfer⟩, ⟨hmem, rfl⟩, rfl⟩, ht⟩) | ⟨_, ⟨⟨_, transfer⟩, ⟨hmem, rfl⟩, rfl⟩, ht⟩)
    -- the true targets, the false targets and the targets of jumps are collected apart
    all_goals
      refine ⟨transfer, hmem, ?_⟩
      cases transfer <;> simp_all [Transfer.targets]
  · rintro ⟨transfer, hmem, hy⟩
    cases transfer with
    | branch onTrue onFalse =>
      simp only [Transfer.targets, List.mem_cons, List.not_mem_nil, or_false] at hy
      rcases hy with rfl | rfl
      · exact Or.inl (Or.inl ⟨_, ⟨_, ⟨hmem, rfl⟩, rfl⟩, rfl⟩)
      · exact Or.inl (Or.inr ⟨_, ⟨_, ⟨hmem, rfl⟩, rfl⟩, rfl⟩)
    | jump target =>
      simp only [Transfer.targets, List.mem_cons, List.not_mem_nil, or_false] at hy
      subst hy
      exact Or.inr ⟨_, ⟨_, ⟨hmem, rfl⟩, rfl⟩, rfl⟩
    | leave => simp [Transfer.targets] at hy

/-- Distinct blocks keep their places. -/
theorem WellListed.nodes_eq (hb : WellListed blocks) : nodes blocks = blocks.map Prod.fst := by
  rw [nodes, eraseDups_of_nodup (List.nodup_reverse.mpr hb.nodup), List.reverse_reverse]

/-- The graph of well-listed blocks can be built. -/
theorem WellListed.ofBlocks? (hb : WellListed blocks) :
    Graph.ofBlocks? blocks = some (ofBlocks blocks) := by
  rw [Graph.ofBlocks?, if_pos]
  simp only [targetsListed, List.all_eq_true, List.contains_iff_mem]
  exact hb.listed

/-! ## Blocks and their places -/

/-- The place of a block in the list. -/
def place (blocks : List (BlockId × Transfer BlockId)) (x : BlockId) : Nat :=
  (blocks.map Prod.fst).idxOf x

/-- The block at a place of the list. -/
def blockAt (blocks : List (BlockId × Transfer BlockId)) (p : Nat) : BlockId :=
  (blocks.map Prod.fst).getD p 0

section Places

variable (hb : WellListed blocks)

include hb

theorem WellListed.ids_ofBlocks : (ofBlocks blocks).ids = (blocks.map Prod.fst).toArray := by
  rw [ofBlocks, hb.nodes_eq]

theorem WellListed.size_edges : (ofBlocks blocks).edges.size = (blocks.map Prod.fst).length := by
  simp [ofBlocks, Digraph.size, hb.nodes_eq]

/-- The place of a block is a place of the graph. -/
theorem WellListed.place_lt (hx : x ∈ blocks.map Prod.fst) :
    place blocks x < (ofBlocks blocks).edges.size := by
  rw [hb.size_edges]
  exact List.idxOf_lt_length_of_mem hx

omit hb in
/-- A block is found again at its place. -/
theorem blockAt_place (hx : x ∈ blocks.map Prod.fst) : blockAt blocks (place blocks x) = x := by
  have hlt : place blocks x < (blocks.map Prod.fst).length := List.idxOf_lt_length_of_mem hx
  rw [blockAt, List.getD_eq_getElem _ _ hlt]
  exact List.getElem_idxOf hlt

/-- The block at a place has that place. -/
theorem WellListed.place_blockAt {p : Nat} (hp : p < (ofBlocks blocks).edges.size) :
    place blocks (blockAt blocks p) = p := by
  rw [hb.size_edges] at hp
  rw [blockAt, List.getD_eq_getElem _ _ hp]
  exact hb.nodup.idxOf_getElem p hp

/-- At the places of the graph stand listed blocks. -/
theorem WellListed.blockAt_mem {p : Nat} (hp : p < (ofBlocks blocks).edges.size) :
    blockAt blocks p ∈ blocks.map Prod.fst := by
  rw [hb.size_edges] at hp
  rw [blockAt, List.getD_eq_getElem _ _ hp]
  exact List.getElem_mem hp

omit hb in
theorem place_inj (hx : x ∈ blocks.map Prod.fst) : place blocks x = place blocks y ↔ x = y :=
  List.idxOf_inj hx

/-- The successors of the place of a block are the places of its targets. -/
theorem WellListed.mem_next_iff {p q : Nat} :
    q ∈ (ofBlocks blocks).edges.next p ↔
      p < (ofBlocks blocks).edges.size ∧
        ∃ y, Flows blocks (blockAt blocks p) y ∧ place blocks y = q := by
  by_cases hp : p < (ofBlocks blocks).edges.size
  · have hp' : p < (blocks.map Prod.fst).length := hb.size_edges ▸ hp
    have hlen : p < blocks.length := by simpa using hp'
    have hnext : (ofBlocks blocks).edges.next p =
        (targets blocks (blockAt blocks p)).map (place blocks) := by
      rw [blockAt, List.getD_eq_getElem _ _ hp']
      unfold place
      simp [ofBlocks, Digraph.next, hb.nodes_eq, List.getElem?_eq_getElem hlen]
    rw [hnext, List.mem_map]
    simp only [mem_targets_iff, hp, true_and]
  · exact ⟨fun h => absurd (Digraph.lt_size_of_mem_next h) hp, fun h => absurd h.1 hp⟩

/-- Control passes between blocks as edges lead between their places. -/
theorem WellListed.edge_place_iff (hx : x ∈ blocks.map Prod.fst) (hy : y ∈ blocks.map Prod.fst) :
    (ofBlocks blocks).edges.Edge (place blocks x) (place blocks y) ↔ Flows blocks x y := by
  rw [Digraph.Edge, hb.mem_next_iff, blockAt_place hx]
  constructor
  · rintro ⟨⟨-, z, hflow, hz⟩, -⟩
    obtain rfl := (place_inj (hb.mem_right hflow)).mp hz
    exact hflow
  · intro h
    exact ⟨⟨hb.place_lt hx, y, h, rfl⟩, hb.place_lt hy⟩

/-- The flow between blocks is an edge between their places. -/
theorem WellListed.edge_place (h : Flows blocks x y) :
    (ofBlocks blocks).edges.Edge (place blocks x) (place blocks y) :=
  (hb.edge_place_iff h.mem_left (hb.mem_right h)).mpr h

/-- An edge between places is a flow between the blocks there. -/
theorem WellListed.flows_blockAt {p q : Nat} (h : (ofBlocks blocks).edges.Edge p q) :
    Flows blocks (blockAt blocks p) (blockAt blocks q) := by
  rw [← hb.edge_place_iff (hb.blockAt_mem h.lt_size) (hb.blockAt_mem h.2),
    hb.place_blockAt h.lt_size, hb.place_blockAt h.2]
  exact h

/-- Blocks lead to each other as their places do. -/
theorem WellListed.reflTransGen_place_iff (hx : x ∈ blocks.map Prod.fst)
    (hy : y ∈ blocks.map Prod.fst) :
    ReflTransGen (ofBlocks blocks).edges.Edge (place blocks x) (place blocks y) ↔
      ReflTransGen (Flows blocks) x y := by
  constructor
  · intro h
    have hlift := h.lift (blockAt blocks) fun _ _ => hb.flows_blockAt
    simpa only [Function.onFun, blockAt_place hx, blockAt_place hy] using hlift
  · intro h
    exact h.lift (place blocks) fun _ _ => hb.edge_place

/-- What a block leads to is listed. -/
theorem WellListed.mem_of_reflTransGen (hx : x ∈ blocks.map Prod.fst)
    (h : ReflTransGen (Flows blocks) x y) : y ∈ blocks.map Prod.fst := by
  cases h with
  | refl => exact hx
  | tail _ h => exact hb.mem_right h

/-- The exit roots are the blocks whose places are exit roots. -/
theorem WellListed.isExitRoot_iff (hr : r ∈ blocks.map Prod.fst) :
    IsExitRoot blocks r ↔ place blocks r ∈ (ofBlocks blocks).edges.exitRoots := by
  rw [Digraph.mem_exitRoots_iff]
  constructor
  · intro h
    refine ⟨hb.place_lt hr, fun p hp => ?_⟩
    have hlt : p < (ofBlocks blocks).edges.size :=
      Digraph.lt_size_of_reflTransGen (hb.place_lt hr) hp
    rw [← hb.place_blockAt hlt] at hp ⊢
    have hmem := hb.blockAt_mem hlt
    rw [hb.reflTransGen_place_iff hr hmem] at hp
    -- everything the root leads to stays in its component
    have hsame : SameComponent blocks r (blockAt blocks p) := by
      generalize blockAt blocks p = x at hp
      induction hp with
      | refl => exact ⟨.refl, .refl⟩
      | tail _ hflow ih => exact h.closed _ _ ih hflow
    exact ⟨(hb.reflTransGen_place_iff hmem hr).mpr hsame.2, h.first _ hsame⟩
  · rintro ⟨-, h⟩
    -- a root of positions is led back to from all it leads to, which is its component
    refine ⟨hr, fun x y hx hflow => ?_, fun x hx => ?_⟩
    · have hxmem := hb.mem_of_reflTransGen hr hx.1
      have hry : ReflTransGen (Flows blocks) r y := hx.1.tail hflow
      have hymem := hb.mem_of_reflTransGen hr hry
      have hback := (h _ ((hb.reflTransGen_place_iff hr hymem).mpr hry)).1
      exact ⟨hry, (hb.reflTransGen_place_iff hymem hr).mp hback⟩
    · have hxmem := hb.mem_of_reflTransGen hr hx.1
      exact (h _ ((hb.reflTransGen_place_iff hr hxmem).mpr hx.1)).2

/-- A block escapes another as its place does. -/
theorem WellListed.escapes_place_iff (hx : x ∈ blocks.map Prod.fst)
    (hy : y ∈ blocks.map Prod.fst) :
    (ofBlocks blocks).edges.exitGraph.Escapes (place blocks y) (place blocks x) ↔
      (exitGraph blocks).Escapes y x := by
  constructor
  · intro h
    -- different positions hold different blocks, so the avoided one stays avoided
    have hne : ∀ a, a < (ofBlocks blocks).edges.size → a ≠ place blocks y →
        blockAt blocks a ≠ blockAt blocks (place blocks y) := by
      intro a ha hay heq
      rw [blockAt_place hy] at heq
      exact hay (by rw [← heq, hb.place_blockAt ha])
    rw [← blockAt_place hx, ← blockAt_place hy]
    refine h.map (blockAt blocks) ?_ ?_
    · intro a b hay hab
      exact ⟨hne a (Digraph.Edge.lt_size hab) hay, hb.flows_blockAt hab⟩
    · intro a hay ha
      have hlt : a < (ofBlocks blocks).edges.size := Digraph.lt_size_of_mem_exitRoots ha
      refine ⟨hne a hlt hay, (hb.isExitRoot_iff (hb.blockAt_mem hlt)).mpr ?_⟩
      rw [hb.place_blockAt hlt]
      exact ha
  · intro h
    refine h.map (place blocks) ?_ ?_
    · intro a b hay hab
      have hmem : a ∈ blocks.map Prod.fst := Flows.mem_left hab
      exact ⟨fun heq => hay ((place_inj hmem).mp heq), hb.edge_place hab⟩
    · intro a hay ha
      have hmem : a ∈ blocks.map Prod.fst := IsExitRoot.mem ha
      exact ⟨fun heq => hay ((place_inj hmem).mp heq), (hb.isExitRoot_iff hmem).mp ha⟩

/-- Post-dominance of blocks is that of their places. -/
theorem WellListed.postDominates_place_iff (hx : x ∈ blocks.map Prod.fst)
    (hy : y ∈ blocks.map Prod.fst) :
    (ofBlocks blocks).edges.exitGraph.PostDominates (place blocks y) (place blocks x) ↔
      (exitGraph blocks).PostDominates y x := by
  rw [ExitGraph.postDominates_iff, ExitGraph.postDominates_iff, hb.escapes_place_iff hx hy]

/-- Every block leads to the virtual exit. -/
theorem WellListed.leaves (hx : x ∈ blocks.map Prod.fst) : (exitGraph blocks).Leaves x := by
  obtain ⟨p, hp, hxp⟩ := Digraph.exists_mem_exitRoots (hb.place_lt hx)
  have hlt := Digraph.lt_size_of_mem_exitRoots hp
  rw [← hb.place_blockAt hlt, hb.reflTransGen_place_iff hx (hb.blockAt_mem hlt)] at hxp
  have hroot : IsExitRoot blocks (blockAt blocks p) := by
    rw [hb.isExitRoot_iff (hb.blockAt_mem hlt), hb.place_blockAt hlt]
    exact hp
  induction hxp using ReflTransGen.head_induction_on with
  | refl => exact .exit hroot
  | head hflow _ ih => exact .step hflow (ih (hb.mem_right hflow))

/-- Exactly the listed blocks lead out, since every place of the graph does. -/
theorem WellListed.leaves_iff : (exitGraph blocks).Leaves x ↔ x ∈ blocks.map Prod.fst := by
  refine ⟨fun h => ?_, hb.leaves⟩
  cases h with
  | exit hroot => exact IsExitRoot.mem hroot
  | step hflow _ => exact Flows.mem_left hflow

/-! ## Operations of the graph -/

theorem WellListed.position?_of_mem (hx : x ∈ blocks.map Prod.fst) :
    (ofBlocks blocks).position? x = some (place blocks x) := by
  rw [position?, hb.ids_ofBlocks, List.idxOf?_toArray]
  obtain ⟨p, hp⟩ := Option.isSome_iff_exists.mp (List.isSome_idxOf?.mpr hx)
  rw [hp, place, List.idxOf_eq_getD_idxOf?, hp, Option.getD_some]

theorem WellListed.position?_of_not_mem (hx : x ∉ blocks.map Prod.fst) :
    (ofBlocks blocks).position? x = none := by
  rw [position?, hb.ids_ofBlocks, List.idxOf?_toArray]
  exact List.idxOf?_eq_none_iff.mpr hx

/-- The table of blocks says which block stands where. -/
theorem WellListed.getElem?_ids {p : Nat} :
    (ofBlocks blocks).ids[p]? = some x ↔ x ∈ blocks.map Prod.fst ∧ place blocks x = p := by
  rw [hb.ids_ofBlocks, List.getElem?_toArray, List.getElem?_eq_some_iff]
  constructor
  · rintro ⟨hp, rfl⟩
    exact ⟨List.getElem_mem hp, hb.nodup.idxOf_getElem p hp⟩
  · rintro ⟨hx, rfl⟩
    exact ⟨List.idxOf_lt_length_of_mem hx, List.getElem_idxOf _⟩

/-- The search for a region leaves out the place of the point, if the point is listed at all. -/
theorem WellListed.region_eq (hx : x ∈ blocks.map Prod.fst) (point : BlockId) :
    ∃ free : Array Bool, free.size = (ofBlocks blocks).edges.size ∧
      (∀ z ∈ blocks.map Prod.fst, IsFree free (place blocks z) ↔ z ≠ point) ∧
      (ofBlocks blocks).region x point = (ofBlocks blocks).blocksAt
        ((ofBlocks blocks).edges.sweep free ((ofBlocks blocks).edges.next (place blocks x))) := by
  by_cases hpoint : point ∈ blocks.map Prod.fst
  · refine ⟨(ofBlocks blocks).edges.allFreeBut (place blocks point), by simp, ?_, ?_⟩
    · intro z hz
      rw [Digraph.isFree_allFreeBut, Ne, place_inj hz]
      exact and_iff_right (hb.place_lt hz)
    · rw [region, hb.position?_of_mem hx, hb.position?_of_mem hpoint]
  · refine ⟨(ofBlocks blocks).edges.allFree, by simp, ?_, ?_⟩
    · intro z hz
      rw [Digraph.isFree_allFree]
      refine iff_of_true (hb.place_lt hz) ?_
      rintro rfl
      exact hpoint hz
    · rw [region, hb.position?_of_mem hx, hb.position?_of_not_mem hpoint]

/-- The region of a block up to a point holds the blocks at the end of a nonempty path on which no
block after the first is the point. -/
theorem WellListed.mem_region_iff {point : BlockId} :
    y ∈ (ofBlocks blocks).region x point ↔
      TransGen ((exitGraph blocks).EdgeAvoiding point) x y := by
  by_cases hx : x ∈ blocks.map Prod.fst
  · obtain ⟨free, hsize, hfree, hregion⟩ := hb.region_eq hx point
    rw [hregion, blocksAt, List.mem_filterMap]
    simp only [Digraph.mem_sweep_iff hsize, Digraph.enters_next_iff, hb.getElem?_ids]
    constructor
    · -- paths of positions are read as paths of blocks, and the other way round below
      rintro ⟨q, hq, hy, rfl⟩
      have hlift := hq.lift (p := (exitGraph blocks).EdgeAvoiding point) (blockAt blocks) (by
        rintro a b ⟨hab, hb'⟩
        have hlt : b < (ofBlocks blocks).edges.size := hsize ▸ hb'.lt_size
        refine ⟨hb.flows_blockAt ⟨hab, hlt⟩, (hfree _ (hb.blockAt_mem hlt)).mp ?_⟩
        rwa [hb.place_blockAt hlt])
      simpa only [Function.onFun, blockAt_place hx, blockAt_place hy] using hlift
    · intro h
      have hy : y ∈ blocks.map Prod.fst := by
        cases h with
        | single h => exact hb.mem_right h.1
        | tail _ h => exact hb.mem_right h.1
      refine ⟨place blocks y, h.lift (place blocks) ?_, hy, rfl⟩
      rintro a b ⟨hab, hne⟩
      exact ⟨(hb.edge_place hab).1, (hfree b (hb.mem_right hab)).mpr hne⟩
  · -- a block that is not listed has no region and no successors
    rw [region, hb.position?_of_not_mem hx]
    simp only [List.not_mem_nil, false_iff]
    intro h
    obtain ⟨z, hxz, -⟩ := TransGen.head'_iff.mp h
    exact hx (Flows.mem_left hxz.1)

end Places

end Graph

namespace PostDominators

open Rejoin.Graph

variable {blocks : List (BlockId × Transfer BlockId)} {x p : BlockId} (hb : WellListed blocks)

include hb

/-- Looking up a block is looking up its place. -/
private theorem immediate?_eq (hx : x ∈ blocks.map Prod.fst) :
    (ofGraph (ofBlocks blocks)).immediate? x =
      (Digraph.immediateIn? (ofBlocks blocks).edges.escapes (ofBlocks blocks).edges.size
        (place blocks x)).bind fun q => (ofBlocks blocks).ids[q]? := by
  have hlt := hb.place_lt hx
  rw [immediate?, ofGraph]
  simp only [hb.position?_of_mem hx, Digraph.getD_immediates hlt, Option.bind_eq_bind,
    Option.bind_some]

/-- A block is immediate for another as its place is. -/
private theorem isImmediate_place_iff (hx : x ∈ blocks.map Prod.fst)
    (hp : p ∈ blocks.map Prod.fst) :
    (ofBlocks blocks).edges.exitGraph.IsImmediate (place blocks p) (place blocks x) ↔
      (exitGraph blocks).IsImmediate p x := by
  rw [ExitGraph.IsImmediate, ExitGraph.IsImmediate, hb.postDominates_place_iff hx hp, Ne,
    place_inj hp]
  -- every other post-dominator is listed, so it may be asked for by block or by place
  refine and_congr_right fun _ => and_congr_right fun _ => ?_
  constructor
  · intro h q hqx hdom
    have hq : q ∈ blocks.map Prod.fst :=
      hb.mem_of_reflTransGen hx (hdom.reaches_and_leaves (hb.leaves hx)).1
    rw [← hb.postDominates_place_iff hp hq]
    refine h _ (fun heq => hqx ((place_inj hq).mp heq)) ?_
    rwa [hb.postDominates_place_iff hx hq]
  · intro h q hqx hdom
    have hlt := Digraph.lt_size_of_postDominates (hb.place_lt hx) hdom
    have hq := hb.blockAt_mem hlt
    rw [← hb.place_blockAt hlt] at hqx hdom ⊢
    rw [hb.postDominates_place_iff hp hq]
    refine h _ (fun heq => hqx (by rw [heq])) ?_
    rwa [← hb.postDominates_place_iff hx hq]

/-- The immediate post-dominator of a block, by paths between blocks. -/
theorem immediate?_eq_some_iff (hx : x ∈ blocks.map Prod.fst) :
    (ofGraph (ofBlocks blocks)).immediate? x = some p ↔ (exitGraph blocks).IsImmediate p x := by
  have hlt := hb.place_lt hx
  rw [immediate?_eq hb hx, Option.bind_eq_some_iff]
  simp only [hb.getElem?_ids, Digraph.immediateIn?_eq_some_iff hlt]
  constructor
  · rintro ⟨q, hq, hp, rfl⟩
    exact (isImmediate_place_iff hb hx hp).mp hq
  · intro h
    have hp : p ∈ blocks.map Prod.fst :=
      hb.mem_of_reflTransGen hx (h.2.1.reaches_and_leaves (hb.leaves hx)).1
    exact ⟨place blocks p, (isImmediate_place_iff hb hx hp).mpr h, hp, rfl⟩

/-- A block without an immediate post-dominator has no other post-dominator at all. -/
theorem immediate?_eq_none_iff (hx : x ∈ blocks.map Prod.fst) :
    (ofGraph (ofBlocks blocks)).immediate? x = none ↔
      ∀ q, q ≠ x → ¬(exitGraph blocks).PostDominates q x := by
  constructor
  · intro h q hq hqx
    obtain ⟨p, hp⟩ := ExitGraph.exists_isImmediate (hb.leaves hx) hq hqx
    rw [(immediate?_eq_some_iff hb hx).mpr hp] at h
    cases h
  · intro h
    cases hfind : (ofGraph (ofBlocks blocks)).immediate? x with
    | none => rfl
    | some p =>
      have hp := (immediate?_eq_some_iff hb hx).mp hfind
      exact absurd hp.2.1 (h p hp.1)

/-- A block that is not listed has no immediate post-dominator. -/
theorem immediate?_of_not_mem (hx : x ∉ blocks.map Prod.fst) :
    (ofGraph (ofBlocks blocks)).immediate? x = none := by
  rw [immediate?, ofGraph]
  simp only [hb.position?_of_not_mem hx, Option.bind_eq_bind, Option.bind_none]

/-- What the tree answers is the nearest post-dominator. -/
theorem isImmediate_of_immediate? (h : (ofGraph (ofBlocks blocks)).immediate? x = some p) :
    (exitGraph blocks).IsImmediate p x := by
  by_cases hx : x ∈ blocks.map Prod.fst
  · exact (immediate?_eq_some_iff hb hx).mp h
  · rw [immediate?_of_not_mem hb hx] at h
    cases h

/-- The immediate post-dominators are given by the graph with exits. -/
theorem immediate?_eq_of_exitGraph {blocks' : List (BlockId × Transfer BlockId)}
    (hb' : WellListed blocks') (h : exitGraph blocks' = exitGraph blocks) :
    (ofGraph (ofBlocks blocks')).immediate? = (ofGraph (ofBlocks blocks)).immediate? := by
  funext x
  -- the listed blocks are those that lead to the virtual exit
  have hlisted : x ∈ blocks'.map Prod.fst ↔ x ∈ blocks.map Prod.fst := by
    rw [← hb'.leaves_iff, ← hb.leaves_iff, h]
  by_cases hx : x ∈ blocks.map Prod.fst
  · ext p
    rw [immediate?_eq_some_iff hb hx, immediate?_eq_some_iff hb' (hlisted.mpr hx), h]
  · rw [immediate?_of_not_mem hb hx, immediate?_of_not_mem hb' (mt hlisted.mp hx)]

end PostDominators

end Rejoin
