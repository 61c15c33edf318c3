import Mathlib.Data.List.Forall2
import Rejoin.Proofs.Flow.Reconvergence

/-!
# Placing blocks

The blocks of a function may be listed in another order, and the targets of a branch may be
exchanged. Neither changes where control may pass, but the order of the blocks chooses the root of
a loop that never ends. Where control can always return there is no such loop: it ends exactly in
the blocks that leave the function, and the reconvergence points stay where they are.

* `Graph.Rearranges` — the same blocks in another order, with targets exchanged;
* `Graph.Returns` — every block leads to one that leaves the function;
* `Graph.WellListed.isExitRoot_iff_leave` — control ends only in blocks that leave the function;
* `immediate?_of_rearranges` — the reconvergence points stay.
-/

open Relation

namespace Rejoin

/-- A transfer is another one, or the same branch with its targets exchanged. -/
inductive Transfer.Mirrors {β : Type} : Transfer β → Transfer β → Prop
  /-- The transfer stays as it is. -/
  | same (transfer : Transfer β) : Mirrors transfer transfer
  /-- The targets of the branch are exchanged. -/
  | exchanged (onTrue onFalse : β) : Mirrors (.branch onTrue onFalse) (.branch onFalse onTrue)

namespace Transfer.Mirrors

variable {β : Type} {transfer transfer' : Transfer β} (h : transfer.Mirrors transfer')

include h

/-- Exchanging targets keeps which blocks are targets. -/
theorem mem_targets (target : β) : target ∈ transfer'.targets ↔ target ∈ transfer.targets := by
  cases h with
  | same => rfl
  | exchanged onTrue onFalse =>
    simp only [targets, List.mem_cons, List.not_mem_nil, or_false]
    exact or_comm

/-- What leaves the function still does. -/
theorem eq_leave : transfer' = .leave ↔ transfer = .leave := by
  cases h with
  | same => rfl
  | exchanged onTrue onFalse => simp only [reduceCtorEq]

end Transfer.Mirrors

namespace Graph

variable {blocks blocks' : List (BlockId × Transfer BlockId)} {x y r : BlockId}

/-- The same blocks, placed in another order and with the targets of some branches exchanged. -/
def Rearranges (blocks blocks' : List (BlockId × Transfer BlockId)) : Prop :=
  ∃ placed, placed.Perm blocks ∧
    List.Forall₂ (fun block block' => block.1 = block'.1 ∧ block.2.Mirrors block'.2) placed blocks'

/-- Every block leads to one that leaves the function. -/
def Returns (blocks : List (BlockId × Transfer BlockId)) : Prop :=
  ∀ x ∈ blocks.map Prod.fst, ∃ y, (y, .leave) ∈ blocks ∧ ReflTransGen (Flows blocks) x y

/-! ## Where control ends -/

/-- A block that leaves the function is alone in its component. -/
theorem WellListed.eq_of_reflTransGen_leave (hb : WellListed blocks) (hx : (x, .leave) ∈ blocks)
    (h : ReflTransGen (Flows blocks) x y) : y = x := by
  rcases h.cases_head with heq | ⟨z, hflow, -⟩
  · exact heq.symm
  · exact absurd hflow (hb.not_flows_of_leave hx)

/-- Where control can always return, it ends exactly in the blocks that leave the function. -/
theorem WellListed.isExitRoot_iff_leave (hb : WellListed blocks) (hreturns : Returns blocks) :
    IsExitRoot blocks r ↔ (r, .leave) ∈ blocks := by
  constructor
  · intro hroot
    obtain ⟨y, hy, hry⟩ := hreturns r hroot.mem
    -- no edge leaves the component of the root, so the way to the return stays inside it
    have hsame : SameComponent blocks r y := by
      clear hy
      induction hry with
      | refl => exact ⟨.refl, .refl⟩
      | tail _ hflow ih => exact hroot.closed _ _ ih hflow
    obtain rfl := hb.eq_of_reflTransGen_leave hy hsame.2
    exact hy
  · intro hr
    have halone : ∀ x, SameComponent blocks r x → x = r := fun x hx =>
      hb.eq_of_reflTransGen_leave hr hx.1
    refine ⟨List.mem_map_of_mem hr, fun x y hx hflow => ?_, fun x hx => ?_⟩
    · rw [halone x hx] at hflow
      exact absurd hflow (hb.not_flows_of_leave hr)
    · rw [halone x hx]

/-! ## Rearranged blocks -/

namespace Rearranges

variable (h : Rearranges blocks blocks')

include h

/-- The same blocks are listed. -/
theorem perm_map_fst : (blocks'.map Prod.fst).Perm (blocks.map Prod.fst) := by
  obtain ⟨placed, hperm, hpairs⟩ := h
  have hfst : placed.map Prod.fst = blocks'.map Prod.fst := by
    rw [← List.forall₂_eq_eq_eq, List.forall₂_map_left_iff, List.forall₂_map_right_iff]
    exact hpairs.imp fun _ _ hpair => hpair.1
  rw [← hfst]
  exact hperm.map _

/-- What mirroring keeps of a transfer holds of how control leaves a block in both lists. -/
theorem exists_mem_iff {P : Transfer BlockId → Prop}
    (hP : ∀ transfer transfer', transfer.Mirrors transfer' → (P transfer' ↔ P transfer)) :
    (∃ transfer, (x, transfer) ∈ blocks' ∧ P transfer) ↔
      ∃ transfer, (x, transfer) ∈ blocks ∧ P transfer := by
  obtain ⟨placed, hperm, hpairs⟩ := h
  simp only [← hperm.mem_iff]
  clear hperm
  induction hpairs with
  | nil => rfl
  | @cons block block' placed blocks' hpair _ ih =>
    obtain ⟨id, transfer⟩ := block
    obtain ⟨id', transfer'⟩ := block'
    obtain ⟨rfl, hmirrors⟩ := hpair
    simp only [List.mem_cons, or_and_right, exists_or, ih, Prod.mk.injEq, and_assoc,
      exists_and_left, exists_eq_left, hP _ _ hmirrors]

/-- Control flows as before. -/
theorem flows_iff : Flows blocks' x y ↔ Flows blocks x y :=
  h.exists_mem_iff fun _ _ hmirrors => hmirrors.mem_targets y

theorem mem_leave_iff : (x, .leave) ∈ blocks' ↔ (x, .leave) ∈ blocks := by
  have hiff := h.exists_mem_iff (x := x) (P := (· = .leave)) fun _ _ hmirrors => hmirrors.eq_leave
  simpa only [exists_eq_right] using hiff

/-- A rearranged list is well listed. -/
theorem wellListed (hb : WellListed blocks) : WellListed blocks' where
  nodup := h.perm_map_fst.nodup_iff.mpr hb.nodup
  listed := by
    rintro ⟨x, transfer⟩ hblock target htarget
    have hflow : Flows blocks x target := h.flows_iff.mp ⟨transfer, hblock, htarget⟩
    exact h.perm_map_fst.mem_iff.mpr (hb.mem_right hflow)

/-- Its blocks still reach a return. -/
theorem returns (hreturns : Returns blocks) : Returns blocks' := by
  intro x hx
  obtain ⟨y, hy, hxy⟩ := hreturns x (h.perm_map_fst.mem_iff.mp hx)
  exact ⟨y, h.mem_leave_iff.mpr hy, ReflTransGen.mono (fun _ _ => h.flows_iff.mpr) x y hxy⟩

/-- Control passes between the same blocks and ends in the same ones. -/
theorem exitGraph_eq (hb : WellListed blocks) (hreturns : Returns blocks) :
    exitGraph blocks' = exitGraph blocks := by
  refine exitGraph_congr (fun x y => h.flows_iff) fun r => ?_
  rw [(h.wellListed hb).isExitRoot_iff_leave (h.returns hreturns),
    hb.isExitRoot_iff_leave hreturns, h.mem_leave_iff]

end Rearranges

end Graph

open Rejoin.Graph

/-- **Placement of blocks.** Where every block leads to one that leaves the function, neither the
order in which the blocks are listed nor an exchange of branch targets changes the immediate
post-dominator of any block. -/
theorem immediate?_of_rearranges {blocks blocks' : List (BlockId × Transfer BlockId)}
    (hb : WellListed blocks) (hreturns : Returns blocks) (h : Rearranges blocks blocks') :
    ∃ g g', Graph.ofBlocks? blocks = some g ∧ Graph.ofBlocks? blocks' = some g' ∧
      ∀ x, (PostDominators.ofGraph g').immediate? x = (PostDominators.ofGraph g).immediate? x := by
  have hb' := h.wellListed hb
  refine ⟨ofBlocks blocks, ofBlocks blocks', hb.ofBlocks?, hb'.ofBlocks?, fun x => ?_⟩
  rw [PostDominators.immediate?_eq_of_exitGraph hb hb' (h.exitGraph_eq hb hreturns)]

/-- A loop with two ways out, listed backwards and with the targets of one branch exchanged. -/
theorem immediate?_of_rearranges_loop :
    WellListed [(0, .branch 1 2), (1, .branch 0 2), (2, .leave)] ∧
      Returns [(0, .branch 1 2), (1, .branch 0 2), (2, .leave)] ∧
      Rearranges [(0, .branch 1 2), (1, .branch 0 2), (2, .leave)]
        [(2, .leave), (1, .branch 2 0), (0, .branch 1 2)] ∧
      ∃ g', Graph.ofBlocks? [(2, .leave), (1, .branch 2 0), (0, .branch 1 2)] = some g' ∧
        (PostDominators.ofGraph g').immediate? 0 = some 2 := by
  have hb : WellListed [(0, .branch 1 2), (1, .branch 0 2), (2, .leave)] := by decide
  have hreturns : Returns [(0, .branch 1 2), (1, .branch 0 2), (2, .leave)] := by
    intro x hx
    refine ⟨2, by decide, ?_⟩
    simp only [List.map_cons, List.map_nil, List.mem_cons, List.not_mem_nil, or_false] at hx
    obtain rfl | rfl | rfl := hx
    · exact .single ⟨.branch 1 2, by decide, by decide⟩
    · exact .single ⟨.branch 0 2, by decide, by decide⟩
    · exact .refl
  have hrearranges : Rearranges [(0, .branch 1 2), (1, .branch 0 2), (2, .leave)]
      [(2, .leave), (1, .branch 2 0), (0, .branch 1 2)] :=
    ⟨[(2, .leave), (1, .branch 0 2), (0, .branch 1 2)], by decide,
      .cons ⟨rfl, .same _⟩ (.cons ⟨rfl, .exchanged 0 2⟩ (.cons ⟨rfl, .same _⟩ .nil))⟩
  obtain ⟨g, g', hg, hg', hsame⟩ := immediate?_of_rearranges hb hreturns hrearranges
  refine ⟨hb, hreturns, hrearranges, g', hg', ?_⟩
  rw [hsame, ← Option.some.inj (hb.ofBlocks?.symm.trans hg)]
  decide +kernel

/-- In a loop that never ends the block listed first is the root, so there the order counts. -/
example :
    (PostDominators.ofGraph (ofBlocks [(1, .jump 2), (2, .jump 1)])).immediate? 2 = some 1 ∧
      (PostDominators.ofGraph (ofBlocks [(2, .jump 1), (1, .jump 2)])).immediate? 2 = none := by
  decide +kernel

end Rejoin
