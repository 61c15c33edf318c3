import Rejoin.Proofs.Flow.Components
import Rejoin.Proofs.Flow.ExitGraph

/-!
# Post-dominators of a digraph

The exit roots of a digraph make it a graph with exits, `Digraph.exitGraph`. From every position
some exit root can be reached, so every position leads to the virtual exit. With this the tables of
`Digraph.escapes` and `Digraph.immediates` are shown to hold what their names say:

* `Digraph.entry_escapes_iff` — the table of escapes;
* `Digraph.immediateIn?_eq_some_iff` — the immediate post-dominator of a position.
-/

open Relation

namespace Rejoin.Digraph

variable {g : Digraph} {x y p : Nat}

/-- The digraph with an edge to the virtual exit from every exit root. -/
def exitGraph (g : Digraph) : ExitGraph Nat where
  Edge := g.Edge
  Exit r := r ∈ g.exitRoots

/-- Every position leads to the virtual exit. -/
theorem leaves_exitGraph (hx : x < g.size) : g.exitGraph.Leaves x := by
  obtain ⟨r, hr, hxr⟩ := exists_mem_exitRoots hx
  induction hxr using ReflTransGen.head_induction_on with
  | refl => exact .exit hr
  | head hedge _ ih => exact .step hedge (ih hedge.2)

/-! ## The table of escapes -/

/-- A backward search from the exit roots that leaves out `y` finds what escapes `y`. -/
private theorem enters_reverse_iff :
    g.reverse.Enters (g.reverse.allFreeBut y) g.exitRoots x ↔ g.exitGraph.Escapes y x := by
  -- a search back from the roots that spares `y` retraces the paths to the exit that avoid it
  constructor
  · intro h
    induction h with
    | start hx hfree => exact .exit (isFree_allFreeBut.mp hfree).2 hx
    | step _ hz hfree ih => exact .step (isFree_allFreeBut.mp hfree).2 (mem_next_reverse.mp hz) ih
  · intro h
    induction h with
    | exit hne hx =>
      refine .start hx (isFree_allFreeBut.mpr ⟨?_, hne⟩)
      rw [size_reverse]
      exact lt_size_of_mem_exitRoots hx
    | step hne hedge _ ih =>
      refine .step ih (mem_next_reverse.mpr hedge) (isFree_allFreeBut.mpr ⟨?_, hne⟩)
      rw [size_reverse]
      exact hedge.lt_size

/-- The table of escapes is true where the column escapes the row. -/
theorem entry_escapes_iff :
    entry g.escapes y x = true ↔ y < g.size ∧ g.exitGraph.Escapes y x := by
  rw [escapes, entry_map_range_iff, getD_marks_iff, mem_sweep_iff (size_allFreeBut _ _),
    enters_reverse_iff]
  constructor
  · rintro ⟨hy, -, h⟩
    exact ⟨hy, h⟩
  · rintro ⟨hy, h⟩
    refine ⟨hy, ?_, h⟩
    cases h with
    | exit _ hx => exact lt_size_of_mem_exitRoots hx
    | step _ hedge _ => exact Edge.lt_size hedge

/-! ## Immediate post-dominators -/

/-- The post-dominators listed for a position are those other than itself. -/
theorem mem_strictPostDominators_iff :
    y ∈ strictPostDominators g.escapes g.size x ↔
      y < g.size ∧ y ≠ x ∧ g.exitGraph.PostDominates y x := by
  rw [strictPostDominators, List.mem_filter, List.mem_range, Bool.and_eq_true, bne_iff_ne,
    Bool.not_eq_true', ← Bool.not_eq_true, entry_escapes_iff, ExitGraph.postDominates_iff]
  constructor
  · rintro ⟨hy, hne, h⟩
    exact ⟨hy, hne, fun hesc => h ⟨hy, hesc⟩⟩
  · rintro ⟨hy, hne, h⟩
    exact ⟨hy, hne, fun hesc => h hesc.2⟩

/-- A post-dominator of a position is itself a position. -/
theorem lt_size_of_postDominates (hx : x < g.size) (h : g.exitGraph.PostDominates y x) :
    y < g.size :=
  lt_size_of_reflTransGen hx (h.reaches_and_leaves (leaves_exitGraph hx)).1

/-- The candidates among which the immediate post-dominator is looked for are exactly the
immediate post-dominators. -/
private theorem isImmediate_iff (hx : x < g.size) :
    (p ∈ strictPostDominators g.escapes g.size x ∧
        ((strictPostDominators g.escapes g.size x).all fun q => !entry g.escapes q p) = true) ↔
      g.exitGraph.IsImmediate p x := by
  rw [mem_strictPostDominators_iff, List.all_eq_true]
  simp only [mem_strictPostDominators_iff, Bool.not_eq_true', ← Bool.not_eq_true,
    entry_escapes_iff]
  constructor
  · rintro ⟨⟨-, hne, hpx⟩, hall⟩
    -- the table is only asked about positions, which all post-dominators are
    refine ⟨hne, hpx, fun q hq hqx => ?_⟩
    have hlt : q < g.size := lt_size_of_postDominates hx hqx
    rw [ExitGraph.postDominates_iff]
    exact fun hesc => hall q ⟨hlt, hq, hqx⟩ ⟨hlt, hesc⟩
  · rintro ⟨hne, hpx, hall⟩
    refine ⟨⟨lt_size_of_postDominates hx hpx, hne, hpx⟩, ?_⟩
    rintro q ⟨-, hq, hqx⟩ ⟨-, hesc⟩
    exact ExitGraph.postDominates_iff.mp (hall q hq hqx) hesc

/-- What the table gives is the nearest post-dominator. -/
private theorem isImmediate_of_immediateIn? (hx : x < g.size)
    (h : immediateIn? g.escapes g.size x = some p) : g.exitGraph.IsImmediate p x := by
  have hall := List.find?_some h
  exact (isImmediate_iff hx).mp ⟨List.mem_of_find?_eq_some h, hall⟩

/-- A position is given its immediate post-dominator. -/
theorem immediateIn?_eq_some_iff (hx : x < g.size) :
    immediateIn? g.escapes g.size x = some p ↔ g.exitGraph.IsImmediate p x := by
  refine ⟨isImmediate_of_immediateIn? hx, fun h => ?_⟩
  cases hfind : immediateIn? g.escapes g.size x with
  | none =>
    -- the search looks at every candidate, and `p` is one
    have hp := (isImmediate_iff hx).mpr h
    exact absurd hp.2 (List.find?_eq_none.mp hfind p hp.1)
  | some q =>
    have hq : g.exitGraph.IsImmediate q x := isImmediate_of_immediateIn? hx hfind
    rw [hq.unique h (leaves_exitGraph hx)]

/-- The table has a row for every place. -/
theorem getD_immediates (hx : x < g.size) :
    g.immediates.getD x none = immediateIn? g.escapes g.size x := by
  simp [immediates, hx]

end Rejoin.Digraph
