import Mathlib.Data.Finset.Max
import Mathlib.Data.Finset.Range
import Rejoin.Flow.PostDominance
import Rejoin.Proofs.Flow.Search

/-!
# Components and exit roots

The exit roots are computed in four steps: the strongly connected components, a table with the
place of the component of every position, the components whose edges all stay inside by that table,
and the least position of each of these. The steps do not depend on how the components are found,
nor on the order in which they are listed, so they are taken apart here:

* `Digraph.IsComponents` — a list holds the strongly connected components of a graph;
* `Digraph.isComponents_components` — `Digraph.components` does;
* `Digraph.mem_exitRootsOf_iff` — from any such list the remaining steps find the positions that
  everything they lead to leads back to, and that are the least of what they lead to;
* `Digraph.exitRootsOf_perm_sinkRoots` — these are the positions that a filter over the table of
  reachability picks out.
-/

open Relation

namespace Rejoin.Digraph

variable {g : Digraph} {x y : Nat}

/-! ## Reversed edges -/

@[simp]
theorem size_reverse (g : Digraph) : g.reverse.size = g.size := by
  simp [reverse, size]

/-- The successors in the reversed graph are the positions with an edge to the given one. -/
theorem mem_next_reverse : x ∈ g.reverse.next y ↔ g.Edge x y := by
  by_cases hy : y < g.size
  · have hnext : g.reverse.next y = g.preds y := by
      simp [next, reverse, hy]
    rw [hnext, preds, List.mem_filter, List.mem_range, List.contains_iff_mem]
    exact ⟨fun h => ⟨h.2, hy⟩, fun h => ⟨h.lt_size, h.1⟩⟩
  · refine ⟨fun h => absurd ?_ hy, fun h => absurd h.2 hy⟩
    simpa using lt_size_of_mem_next h

/-- The edges of the reversed graph are the edges, turned round. -/
theorem edge_reverse_iff : g.reverse.Edge y x ↔ g.Edge x y := by
  rw [Edge, mem_next_reverse, size_reverse]
  exact ⟨And.left, fun h => ⟨h, h.lt_size⟩⟩

/-- In the reversed graph a position leads to what leads to it. -/
theorem reflTransGen_reverse_iff :
    ReflTransGen g.reverse.Edge y x ↔ ReflTransGen g.Edge x y := by
  have hedge : g.reverse.Edge = Function.swap g.Edge := by
    ext a b
    exact edge_reverse_iff
  rw [hedge, reflTransGen_swap]

/-! ## Strongly connected components -/

/-- Two positions are in one strongly connected component. -/
def SameComponent (g : Digraph) (x y : Nat) : Prop :=
  ReflTransGen g.Edge x y ∧ ReflTransGen g.Edge y x

/-- To be in one component goes both ways. -/
theorem SameComponent.symm (h : g.SameComponent x y) : g.SameComponent y x :=
  ⟨h.2, h.1⟩

/-- Components do not overlap: what shares a component with one shares it with all of it. -/
theorem SameComponent.trans {z : Nat} (hxy : g.SameComponent x y) (hyz : g.SameComponent y z) :
    g.SameComponent x z :=
  ⟨hxy.1.trans hyz.1, hyz.2.trans hxy.2⟩

/-- The list holds the strongly connected components of the graph, in any order and each once. -/
structure IsComponents (g : Digraph) (sccs : List (List Nat)) : Prop where
  /-- No component is empty. -/
  ne_nil : ∀ scc ∈ sccs, scc ≠ []
  /-- A component holds positions of the graph. -/
  lt_size : ∀ scc ∈ sccs, ∀ x ∈ scc, x < g.size
  /-- With a position a component holds exactly those that lead to it and that it leads to. -/
  mem_iff : ∀ scc ∈ sccs, ∀ x ∈ scc, ∀ y, y ∈ scc ↔ g.SameComponent x y
  /-- Every position of the graph is in a component. -/
  cover : ∀ x < g.size, ∃ scc ∈ sccs, x ∈ scc
  /-- No two components share a position. -/
  disjoint : sccs.Pairwise List.Disjoint

/-- The search ahead and the search back from a position meet in its component. -/
theorem mem_componentOf_iff :
    y ∈ g.componentOf g.reverse x ↔ x < g.size ∧ g.SameComponent x y := by
  rw [componentOf, List.mem_filter, mem_sweep_iff (size_allFree _), enters_allFree_iff,
    getD_marks_iff, mem_sweep_iff (size_allFree _), enters_allFree_iff, size_reverse,
    reflTransGen_reverse_iff]
  constructor
  · rintro ⟨⟨hx, hback⟩, -, -, hahead⟩
    exact ⟨hx, hahead, hback⟩
  · rintro ⟨hx, hahead, hback⟩
    exact ⟨⟨hx, hback⟩, lt_size_of_reflTransGen hx hahead, hx, hahead⟩

/-- What the search for components lists for a row of positions, some of which are free. -/
private structure Lists (g : Digraph) (free : Array Bool) (row : List Nat)
    (sccs : List (List Nat)) : Prop where
  /-- Each of the lists is the component of a free position of the row. -/
  listed : ∀ scc ∈ sccs, ∃ x ∈ row, IsFree free x ∧ ∀ y, y ∈ scc ↔ g.SameComponent x y
  /-- Every free position of the row is in one of them. -/
  cover : ∀ x ∈ row, IsFree free x → ∃ scc ∈ sccs, x ∈ scc
  /-- No two of them share a position. -/
  disjoint : sccs.Pairwise List.Disjoint

/-- A position that is not free is passed over. -/
private theorem Lists.skip {free : Array Bool} {first : Nat} {later : List Nat}
    {sccs : List (List Nat)} (h : g.Lists free later sccs) (hfirst : ¬IsFree free first) :
    g.Lists free (first :: later) sccs := by
  refine ⟨fun scc hscc => ?_, fun x hx hfree => ?_, h.disjoint⟩
  · obtain ⟨x, hx, hrest⟩ := h.listed scc hscc
    exact ⟨x, List.mem_cons_of_mem first hx, hrest⟩
  · refine h.cover x ((List.mem_cons.mp hx).resolve_left ?_) hfree
    rintro rfl
    exact hfirst hfree

/-- A free position adds its component, and the search goes on outside of it. -/
private theorem Lists.take {free left : Array Bool} {first : Nat} {later scc : List Nat}
    {sccs : List (List Nat)} (h : g.Lists left later sccs) (hfirst : IsFree free first)
    (hmem : ∀ y, y ∈ scc ↔ g.SameComponent first y)
    (hleft : ∀ y, IsFree left y ↔ IsFree free y ∧ ¬g.SameComponent first y) :
    g.Lists free (first :: later) (scc :: sccs) := by
  refine ⟨?listed, fun x hx hfree => ?cover, ?disjoint⟩
  case listed =>
    rw [List.forall_mem_cons]
    refine ⟨⟨first, List.mem_cons_self, hfirst, hmem⟩, fun other hother => ?_⟩
    obtain ⟨x, hx, hfree, hiff⟩ := h.listed other hother
    exact ⟨x, List.mem_cons_of_mem first hx, ((hleft x).mp hfree).1, hiff⟩
  case cover =>
    by_cases hsame : g.SameComponent first x
    · exact ⟨scc, List.mem_cons_self, (hmem x).mpr hsame⟩
    · -- a position outside the first component is still free behind it
      have hlater : x ∈ later := (List.mem_cons.mp hx).resolve_left fun heq =>
        hsame (heq ▸ ⟨.refl, .refl⟩)
      obtain ⟨other, hother, hxother⟩ := h.cover x hlater ((hleft x).mpr ⟨hfree, hsame⟩)
      exact ⟨other, List.mem_cons_of_mem _ hother, hxother⟩
  case disjoint =>
    rw [List.pairwise_cons]
    refine ⟨fun other hother y hy hyother => ?_, h.disjoint⟩
    obtain ⟨x, -, hfree, hiff⟩ := h.listed other hother
    exact ((hleft x).mp hfree).2 (((hmem y).mp hy).trans ((hiff y).mp hyother).symm)

/-- The search lists the components of the free positions of a row, if the free positions are whole
components at the start. -/
private theorem lists_componentsFrom {free : Array Bool} (row : List Nat)
    (hsize : free.size = g.size)
    (hclosed : ∀ x y, IsFree free x → g.SameComponent x y → IsFree free y) :
    g.Lists free row (g.componentsFrom g.reverse free row) := by
  induction row generalizing free with
  | nil => exact ⟨by simp [componentsFrom], by simp, by simp [componentsFrom]⟩
  | cons first later ih =>
    rw [componentsFrom]
    by_cases hfirst : IsFree free first
    · rw [if_pos (show free.getD first false = true from hfirst)]
      have hlt : first < g.size := hsize ▸ hfirst.lt_size
      have hmem (y : Nat) : y ∈ g.componentOf g.reverse first ↔ g.SameComponent first y := by
        rw [mem_componentOf_iff, and_iff_right hlt]
      have hleft (y : Nat) : IsFree (takeFree free (g.componentOf g.reverse first)).2 y ↔
          IsFree free y ∧ ¬g.SameComponent first y := by
        rw [isFree_takeFree_iff, hmem]
      have hleftSize : (takeFree free (g.componentOf g.reverse first)).2.size = g.size := by
        rw [size_takeFree, hsize]
      -- with the component of `first` taken out, the free positions are still whole components
      refine (ih hleftSize fun x y hx hxy => ?_).take hfirst hmem hleft
      rw [hleft] at hx ⊢
      exact ⟨hclosed x y hx.1 hxy, fun h => hx.2 (h.trans hxy.symm)⟩
    · rw [if_neg (show ¬free.getD first false = true from hfirst)]
      exact (ih hsize hclosed).skip hfirst

/-- The components found are the strongly connected components. -/
theorem isComponents_components (g : Digraph) : g.IsComponents g.components := by
  obtain ⟨hlisted, hcover, hdisjoint⟩ := lists_componentsFrom (List.range g.size)
    (size_allFree g) fun x y hx hxy =>
      isFree_allFree.mpr (lt_size_of_reflTransGen (isFree_allFree.mp hx) hxy.1)
  refine ⟨fun scc hscc hnil => ?_, fun scc hscc y hy => ?_, fun scc hscc y hy z => ?_,
    fun x hx => ?_, hdisjoint⟩
  · obtain ⟨x, -, -, hiff⟩ := hlisted scc hscc
    have hx : x ∈ scc := (hiff x).mpr ⟨.refl, .refl⟩
    simp [hnil] at hx
  · obtain ⟨x, -, hfree, hiff⟩ := hlisted scc hscc
    exact lt_size_of_reflTransGen (isFree_allFree.mp hfree) ((hiff y).mp hy).1
  · obtain ⟨x, -, -, hiff⟩ := hlisted scc hscc
    have hxy := (hiff y).mp hy
    exact (hiff z).trans ⟨hxy.symm.trans, hxy.trans⟩
  · exact hcover x (List.mem_range.mpr hx) (isFree_allFree.mpr hx)

/-! ## The table of components -/

@[simp]
theorem size_fill (table : Array Nat) (xs : List Nat) (i : Nat) :
    (fill table xs i).size = table.size := by
  induction xs generalizing table with
  | nil => rfl
  | cons x xs ih => rw [fill, List.foldl_cons, ← fill, ih, Array.size_setIfInBounds]

/-- Filling sets the entries at the given positions and keeps the others. -/
theorem getElem?_fill (table : Array Nat) (xs : List Nat) (i : Nat) (hy : y < table.size) :
    (fill table xs i)[y]? = if y ∈ xs then some i else table[y]? := by
  induction xs generalizing table with
  | nil => simp [fill]
  | cons x xs ih =>
    rw [fill, List.foldl_cons, ← fill, ih _ (by simpa using hy)]
    by_cases hxs : y ∈ xs
    · simp [hxs]
    · by_cases hxy : x = y
      · subst hxy
        simp [hxs, hy]
      · simp [hxs, Array.getElem?_setIfInBounds_ne hxy, Ne.symm hxy]

@[simp]
theorem size_componentTable (n : Nat) (sccs : List (List Nat)) :
    (componentTable n sccs).size = n := by
  have hfold : ∀ (places : List (List Nat × Nat)) (table : Array Nat),
      (places.foldl (fun table scc => fill table scc.1 scc.2) table).size = table.size := by
    intro places
    induction places with
    | nil => exact fun _ => rfl
    | cons scc rest ih => exact fun table => (ih _).trans (size_fill _ _ _)
  rw [componentTable, hfold, Array.size_replicate]

/-- Components filled in one after the other: an entry is the place of the component that the
position is in, and stays as it was if there is none. `k` is the place of the first of them. -/
private theorem getElem?_foldl_fill {sccs : List (List Nat)}
    (hdisjoint : sccs.Pairwise List.Disjoint) (table : Array Nat) (k : Nat) (hy : y < table.size) :
    (∀ i scc, sccs[i]? = some scc → y ∈ scc →
        ((sccs.zipIdx k).foldl (fun table scc => fill table scc.1 scc.2) table)[y]? =
          some (k + i)) ∧
      ((∀ scc ∈ sccs, y ∉ scc) →
        ((sccs.zipIdx k).foldl (fun table scc => fill table scc.1 scc.2) table)[y]? =
          table[y]?) := by
  induction sccs generalizing table k with
  | nil => simp
  | cons first rest ih =>
    obtain ⟨hfirst, hrest⟩ := List.pairwise_cons.mp hdisjoint
    obtain ⟨hin, hout⟩ := ih hrest (fill table first k) (k + 1) (by simpa using hy)
    rw [List.zipIdx_cons, List.foldl_cons]
    refine ⟨fun i scc hi hscc => ?_, fun hnot => ?_⟩
    · cases i with
      | zero =>
        -- no later component holds the position, so the entry set first is kept
        obtain rfl := Option.some.inj hi
        rw [hout fun scc hmem hyscc => hfirst scc hmem hscc hyscc, getElem?_fill _ _ _ hy,
          if_pos hscc, Nat.add_zero]
      | succ i =>
        rw [hin i scc (by simpa using hi) hscc]
        congr 1
        omega
    · rw [List.forall_mem_cons] at hnot
      rw [hout hnot.2, getElem?_fill _ _ _ hy, if_neg hnot.1]

namespace IsComponents

variable {sccs : List (List Nat)} (h : g.IsComponents sccs)

include h

/-- The table holds the place of a component at each of its positions. -/
theorem getElem?_componentTable {i : Nat} {scc : List Nat} (hi : sccs[i]? = some scc)
    (hy : y ∈ scc) : (componentTable g.size sccs)[y]? = some i := by
  have hlt : y < g.size := h.lt_size scc (List.mem_of_getElem? hi) y hy
  have htable := (getElem?_foldl_fill h.disjoint (Array.replicate g.size 0) 0
    (by simpa using hlt)).1 i scc hi hy
  rw [componentTable, htable, Nat.zero_add]

/-- The table holds the place of a component at no other position. -/
theorem mem_of_getElem?_componentTable {i : Nat} {scc : List Nat} (hi : sccs[i]? = some scc)
    (hy : y < g.size) (htable : (componentTable g.size sccs)[y]? = some i) : y ∈ scc := by
  obtain ⟨other, hother, hyother⟩ := h.cover y hy
  obtain ⟨j, hj⟩ := List.getElem?_of_mem hother
  rw [h.getElem?_componentTable hj hyother, Option.some.injEq] at htable
  subst htable
  rw [hi, Option.some.injEq] at hj
  exact hj ▸ hyother

/-- By the table no edge leaves a component exactly if all edges from its positions lead to
positions of it. -/
theorem staysIn_iff {i : Nat} {scc : List Nat} (hi : sccs[i]? = some scc) :
    g.staysIn (componentTable g.size sccs) scc i = true ↔
      ∀ x ∈ scc, ∀ y, g.Edge x y → y ∈ scc := by
  rw [staysIn, List.all_eq_true]
  constructor
  · intro hall x hx y hedge
    have hentry := hall y (List.mem_flatMap.mpr ⟨x, hx, hedge.1⟩)
    -- the target of the edge has a component of its own, and by the table it is this one
    obtain ⟨other, hother, hyother⟩ := h.cover y hedge.2
    obtain ⟨j, hj⟩ := List.getElem?_of_mem hother
    have htable := h.getElem?_componentTable hj hyother
    rw [htable, Option.all_some, beq_iff_eq] at hentry
    exact h.mem_of_getElem?_componentTable hi hedge.2 (hentry ▸ htable)
  · intro hall y hy
    obtain ⟨x, hx, hnext⟩ := List.mem_flatMap.mp hy
    by_cases hlt : y < g.size
    · rw [h.getElem?_componentTable hi (hall x hx y ⟨hnext, hlt⟩)]
      simp
    · rw [Array.getElem?_eq_none (by simpa using hlt)]
      rfl

/-- If no edge leaves a component, everything that a position of it leads to is in it. -/
theorem forall_edge_mem_iff {scc : List Nat} (hscc : scc ∈ sccs) (hx : x ∈ scc) :
    (∀ y ∈ scc, ∀ z, g.Edge y z → z ∈ scc) ↔
      ∀ y, ReflTransGen g.Edge x y → ReflTransGen g.Edge y x := by
  constructor
  · intro hstays y hxy
    have hy : y ∈ scc := by
      induction hxy with
      | refl => exact hx
      | tail _ hedge ih => exact hstays _ ih _ hedge
    exact ((h.mem_iff scc hscc x hx y).mp hy).2
  · intro hback y hy z hedge
    have hxz : ReflTransGen g.Edge x z := ((h.mem_iff scc hscc x hx y).mp hy).1.tail hedge
    exact (h.mem_iff scc hscc x hx z).mpr ⟨hxz, hback z hxz⟩

/-! ## The exit roots -/

/-- From the components of a graph, the exit roots are the positions that everything they lead to
leads back to, and that are the least of their component. -/
theorem mem_exitRootsOf_iff {r : Nat} :
    r ∈ g.exitRootsOf sccs ↔
      r < g.size ∧ (∀ x, ReflTransGen g.Edge r x → ReflTransGen g.Edge x r) ∧
        ∀ x, g.SameComponent r x → r ≤ x := by
  simp only [exitRootsOf, List.mem_filterMap, List.mem_filter, Prod.exists,
    List.mk_mem_zipIdx_iff_getElem?, List.min?_eq_some_iff]
  constructor
  · rintro ⟨scc, i, ⟨hi, hstays⟩, hr, hleast⟩
    have hscc : scc ∈ sccs := List.mem_of_getElem? hi
    rw [h.staysIn_iff hi, h.forall_edge_mem_iff hscc hr] at hstays
    exact ⟨h.lt_size scc hscc r hr, hstays, fun x hx =>
      hleast x ((h.mem_iff scc hscc r hr x).mpr hx)⟩
  · rintro ⟨hr, hback, hleast⟩
    obtain ⟨scc, hscc, hrscc⟩ := h.cover r hr
    obtain ⟨i, hi⟩ := List.getElem?_of_mem hscc
    refine ⟨scc, i, ⟨hi, ?_⟩, hrscc, fun x hx => hleast x ((h.mem_iff scc hscc r hrscc x).mp hx)⟩
    rwa [h.staysIn_iff hi, h.forall_edge_mem_iff hscc hrscc]

/-- Components that share no position have different least positions. -/
theorem nodup_exitRootsOf : (g.exitRootsOf sccs).Nodup := by
  have hpairs : sccs.zipIdx.Pairwise fun a b => a.1.Disjoint b.1 := by
    have hmap := h.disjoint
    rwa [← List.zipIdx_map_fst 0 sccs, List.pairwise_map] at hmap
  refine List.pairwise_filterMap.mpr ((hpairs.filter _).imp fun {a b} hdisjoint r hr s hs => ?_)
  rintro rfl
  exact hdisjoint (List.min?_eq_some_iff.mp hr).1 (List.min?_eq_some_iff.mp hs).1

end IsComponents

/-- Where everything leads back, the least position of the component is the least that is led to. -/
theorem leads_back_least_iff {r : Nat} :
    (∀ x, ReflTransGen g.Edge r x → ReflTransGen g.Edge x r ∧ r ≤ x) ↔
      (∀ x, ReflTransGen g.Edge r x → ReflTransGen g.Edge x r) ∧
        ∀ x, g.SameComponent r x → r ≤ x := by
  refine ⟨fun h => ?_, fun h x hx => ?_⟩
  · exact ⟨fun x hx => (h x hx).1, fun x hx => (h x hx.1).2⟩
  · have hback : ReflTransGen g.Edge x r := h.1 x hx
    exact ⟨hback, h.2 x ⟨hx, hback⟩⟩

/-- The exit roots are the positions that everything they lead to leads back to, and that are
the least of what they lead to. -/
theorem mem_exitRoots_iff {r : Nat} :
    r ∈ g.exitRoots ↔
      r < g.size ∧ ∀ x, ReflTransGen g.Edge r x → ReflTransGen g.Edge x r ∧ r ≤ x := by
  rw [exitRoots, g.isComponents_components.mem_exitRootsOf_iff, leads_back_least_iff]

theorem lt_size_of_mem_exitRoots {r : Nat} (h : r ∈ g.exitRoots) : r < g.size :=
  (mem_exitRoots_iff.mp h).1

/-- The table whose row `x` is true at the positions that `x` leads to, itself included. -/
def reaches (g : Digraph) : Array (Array Bool) :=
  ((List.range g.size).map fun x => marks g.size (g.sweep g.allFree [x])).toArray

/-- The exit roots without components: the positions that, by the table of what leads where,
everything they lead to leads back to, and that are the least of what they lead to. -/
def sinkRoots (g : Digraph) : List Nat :=
  let reaches := g.reaches
  (List.range g.size).filter fun root =>
    (List.range g.size).all fun x =>
      !entry reaches root x || (entry reaches x root && root ≤ x)

/-- The table of `Digraph.reaches` holds the reflexive transitive closure of the edges. -/
theorem entry_reaches_iff :
    entry g.reaches x y = true ↔ x < g.size ∧ ReflTransGen g.Edge x y := by
  rw [reaches, entry_map_range_iff, getD_marks_iff, mem_sweep_iff g.size_allFree,
    enters_allFree_iff]
  constructor
  · rintro ⟨-, -, h⟩
    exact h
  · rintro ⟨hx, h⟩
    exact ⟨hx, lt_size_of_reflTransGen hx h, hx, h⟩

/-- The filter picks out the positions that everything they lead to leads back to, and that are the
least of what they lead to. -/
theorem mem_sinkRoots_iff {r : Nat} :
    r ∈ g.sinkRoots ↔
      r < g.size ∧ ∀ x, ReflTransGen g.Edge r x → ReflTransGen g.Edge x r ∧ r ≤ x := by
  simp only [sinkRoots, List.mem_filter, List.mem_range, List.all_eq_true, Bool.or_eq_true,
    Bool.and_eq_true, Bool.not_eq_true', ← Bool.not_eq_true, entry_reaches_iff, decide_eq_true_eq]
  constructor
  · rintro ⟨hr, h⟩
    refine ⟨hr, fun x hx => ?_⟩
    have hlt : x < g.size := lt_size_of_reflTransGen hr hx
    rcases h x hlt with hnot | hback
    · exact absurd ⟨hr, hx⟩ hnot
    · exact ⟨hback.1.2, hback.2⟩
  · rintro ⟨hr, h⟩
    refine ⟨hr, fun x hx => ?_⟩
    by_cases hreach : ReflTransGen g.Edge r x
    · exact Or.inr ⟨⟨hx, (h x hreach).1⟩, (h x hreach).2⟩
    · exact Or.inl fun hboth => hreach hboth.2

/-- However the components are found and in whatever order they are listed, the exit roots are what
the filter over the table of reachability picks out. -/
theorem IsComponents.exitRootsOf_perm_sinkRoots {sccs : List (List Nat)}
    (h : g.IsComponents sccs) : (g.exitRootsOf sccs).Perm g.sinkRoots := by
  have hnodup : g.sinkRoots.Nodup := List.nodup_range.filter _
  refine (List.perm_ext_iff_of_nodup h.nodup_exitRootsOf hnodup).mpr fun r => ?_
  rw [h.mem_exitRootsOf_iff, mem_sinkRoots_iff, leads_back_least_iff]

open Classical in
/-- The positions that a position leads to. -/
private noncomputable def reached (g : Digraph) (x : Nat) : Finset Nat :=
  (Finset.range g.size).filter (ReflTransGen g.Edge x)

/-- Everything that a position leads to is a position of the graph. -/
private theorem mem_reached_iff (hx : x < g.size) :
    y ∈ g.reached x ↔ ReflTransGen g.Edge x y := by
  simp only [reached, Finset.mem_filter, Finset.mem_range]
  exact ⟨And.right, fun h => ⟨lt_size_of_reflTransGen hx h, h⟩⟩

/-- Every position leads to an exit root. -/
theorem exists_mem_exitRoots (hx : x < g.size) :
    ∃ r ∈ g.exitRoots, ReflTransGen g.Edge x r := by
  -- by induction on how many positions `x` leads to
  induction hn : (g.reached x).card using Nat.strong_induction_on generalizing x with
  | _ n ih =>
    subst hn
    by_cases hback : ∀ y, ReflTransGen g.Edge x y → ReflTransGen g.Edge y x
    · -- nothing leads away from `x` for good: the least position it leads to is a root
      have hnonempty : (g.reached x).Nonempty := ⟨x, (mem_reached_iff hx).mpr .refl⟩
      set r := (g.reached x).min' hnonempty
      have hxr : ReflTransGen g.Edge x r := (mem_reached_iff hx).mp (Finset.min'_mem _ _)
      refine ⟨r, mem_exitRoots_iff.mpr ⟨lt_size_of_reflTransGen hx hxr, fun y hy => ?_⟩, hxr⟩
      have hxy : ReflTransGen g.Edge x y := hxr.trans hy
      exact ⟨(hback y hxy).trans hxr, Finset.min'_le _ _ ((mem_reached_iff hx).mpr hxy)⟩
    · -- some `y` does not lead back, so it leads to fewer positions
      push Not at hback
      obtain ⟨y, hxy, hyx⟩ := hback
      have hy : y < g.size := lt_size_of_reflTransGen hx hxy
      have hcard : (g.reached y).card < (g.reached x).card := by
        apply Finset.card_lt_card
        rw [Finset.ssubset_iff_of_subset]
        · exact ⟨x, (mem_reached_iff hx).mpr .refl, fun h => hyx ((mem_reached_iff hy).mp h)⟩
        · intro z hz
          exact (mem_reached_iff hx).mpr (hxy.trans ((mem_reached_iff hy).mp hz))
      obtain ⟨r, hr, hyr⟩ := ih _ hcard hy rfl
      exact ⟨r, hr, hxy.trans hyr⟩

/-- An exit root leads to no other one: the other leads back, so both are the least position of one
component. -/
theorem eq_of_mem_exitRoots {r s : Nat} (hr : r ∈ g.exitRoots) (hs : s ∈ g.exitRoots)
    (h : ReflTransGen g.Edge r s) : s = r := by
  obtain ⟨hback, hrs⟩ := (mem_exitRoots_iff.mp hr).2 s h
  obtain ⟨-, hsr⟩ := (mem_exitRoots_iff.mp hs).2 r hback
  exact Nat.le_antisymm hsr hrs

/-- **Exit roots.** Of every finite graph, with parallel edges and loops or without, the components
found are the strongly connected ones, and from them, as from any other list of the strongly
connected components, the exit roots are found, each once. They are the least positions of the
components that no edge leaves. Every position leads to one of them, and none of them leads to
another. -/
theorem exitRoots_represent_sinks (g : Digraph) :
    g.IsComponents g.components ∧
      (∀ sccs, g.IsComponents sccs → (g.exitRootsOf sccs).Perm g.sinkRoots) ∧
      g.exitRoots.Nodup ∧
      (∀ r, r ∈ g.exitRoots ↔
        r < g.size ∧ (∀ x, ReflTransGen g.Edge r x → ReflTransGen g.Edge x r) ∧
          ∀ x, g.SameComponent r x → r ≤ x) ∧
      (∀ x < g.size, ∃ r ∈ g.exitRoots, ReflTransGen g.Edge x r) ∧
      ∀ r ∈ g.exitRoots, ∀ s ∈ g.exitRoots, ReflTransGen g.Edge r s → s = r := by
  have hcomponents := g.isComponents_components
  refine ⟨hcomponents, fun sccs h => h.exitRootsOf_perm_sinkRoots, hcomponents.nodup_exitRootsOf,
    fun r => hcomponents.mem_exitRootsOf_iff, fun x => exists_mem_exitRoots, ?_⟩
  exact fun r hr s hs => eq_of_mem_exitRoots hr hs

/-- Position 0 leads to both ends: by two parallel edges to a loop at 1, and to the cycle of 3
and 2. -/
example : (Digraph.mk #[[1, 1, 3], [1], [3], [2]]).exitRoots = [1, 2] := by
  decide +kernel

end Rejoin.Digraph
