import Mathlib.Logic.Relation
import Mathlib.Order.Lattice.Nat
import Mathlib.Tactic.Common
import Rejoin.Flow.Digraph

/-!
# What a breadth-first search finds

A search enters a free position from the row it starts with, or along an edge from a position it
has entered. `Digraph.Enters` is this rule, without any order of search, and the module proves:

* `Digraph.mem_sweep_iff` — `Digraph.sweep` lists exactly the positions the rule allows;
* `Digraph.nodup_sweep` — it lists each of them once;
* `Digraph.exists_distance_sweep` — it lists what is entered along fewer edges first;
* `Digraph.enters_allFree_iff` — a search of the whole graph from one position finds the reflexive
  transitive closure of the edges.
-/

open Relation

namespace Rejoin

/-- The table says that the position `x` is free. -/
def IsFree (free : Array Bool) (x : Nat) : Prop :=
  free.getD x false = true

/-- Only places of the table can be free. -/
theorem IsFree.lt_size {free : Array Bool} {x : Nat} (h : IsFree free x) : x < free.size := by
  by_contra hx
  simp [IsFree, Array.getElem?_eq_none (Nat.le_of_not_lt hx)] at h

/-- Taking a position leaves the others as free as they were. -/
theorem isFree_setIfInBounds_false {free : Array Bool} {x y : Nat} :
    IsFree (free.setIfInBounds x false) y ↔ IsFree free y ∧ y ≠ x := by
  by_cases hxy : x = y
  · subst hxy
    simp [IsFree]
  · simp [IsFree, Array.getElem?_setIfInBounds_ne hxy, Ne.symm hxy]

/-! ## One wave -/

section Wave

variable {free : Array Bool} {x : Nat}

/-- A free place is taken, and is not free for those after it. -/
private theorem takeFree_cons_free (h : IsFree free x) (entering : List Nat) :
    takeFree free (x :: entering) =
      (x :: (takeFree (free.setIfInBounds x false) entering).1,
        (takeFree (free.setIfInBounds x false) entering).2) := by
  rw [takeFree, if_pos (show free.getD x false = true from h)]

/-- A place that is not free is passed over. -/
private theorem takeFree_cons_taken (h : ¬IsFree free x) (entering : List Nat) :
    takeFree free (x :: entering) = takeFree free entering := by
  rw [takeFree, if_neg (show ¬free.getD x false = true from h)]

/-- A wave takes the free positions of the row it is taken from. -/
theorem mem_takeFree_iff {y : Nat} {entering : List Nat} :
    y ∈ (takeFree free entering).1 ↔ y ∈ entering ∧ IsFree free y := by
  induction entering generalizing free with
  | nil => simp [takeFree]
  | cons x entering ih =>
    by_cases hx : IsFree free x
    · rw [takeFree_cons_free hx, List.mem_cons, List.mem_cons, ih, isFree_setIfInBounds_false]
      by_cases hyx : y = x
      · subst hyx
        simp [hx]
      · simp [hyx]
    · rw [takeFree_cons_taken hx, ih, List.mem_cons]
      constructor
      · rintro ⟨hy, hfree⟩
        exact ⟨Or.inr hy, hfree⟩
      · rintro ⟨rfl | hy, hfree⟩
        · exact absurd hfree hx
        · exact ⟨hy, hfree⟩

/-- After a wave, a position is free if it was free before and is not in the row. -/
theorem isFree_takeFree_iff {y : Nat} {entering : List Nat} :
    IsFree (takeFree free entering).2 y ↔ IsFree free y ∧ y ∉ entering := by
  induction entering generalizing free with
  | nil => simp [takeFree]
  | cons x entering ih =>
    by_cases hx : IsFree free x
    · rw [takeFree_cons_free hx, ih, isFree_setIfInBounds_false, List.mem_cons, not_or, and_assoc]
    · rw [takeFree_cons_taken hx, ih, List.mem_cons, not_or]
      constructor
      · rintro ⟨hfree, hy⟩
        refine ⟨hfree, ?_, hy⟩
        rintro rfl
        exact hx hfree
      · rintro ⟨hfree, -, hy⟩
        exact ⟨hfree, hy⟩

/-- A wave leaves a table of the same size. -/
@[simp]
theorem size_takeFree (free : Array Bool) (entering : List Nat) :
    (takeFree free entering).2.size = free.size := by
  induction entering generalizing free with
  | nil => rfl
  | cons x entering ih =>
    by_cases hx : IsFree free x
    · rw [takeFree_cons_free hx, ih, Array.size_setIfInBounds]
    · rw [takeFree_cons_taken hx, ih]

/-- A wave takes no position twice. -/
theorem nodup_takeFree (entering : List Nat) : (takeFree free entering).1.Nodup := by
  induction entering generalizing free with
  | nil => simp [takeFree]
  | cons x entering ih =>
    by_cases hx : IsFree free x
    · rw [takeFree_cons_free hx, List.nodup_cons]
      refine ⟨?_, ih⟩
      rw [mem_takeFree_iff, isFree_setIfInBounds_false]
      rintro ⟨-, -, hne⟩
      exact hne rfl
    · rw [takeFree_cons_taken hx]
      exact ih

/-- Every position of a wave uses up one free position. -/
theorem count_takeFree (free : Array Bool) (entering : List Nat) :
    (takeFree free entering).2.count true + (takeFree free entering).1.length =
      free.count true := by
  induction entering generalizing free with
  | nil => simp [takeFree]
  | cons x entering ih =>
    by_cases hx : IsFree free x
    · have hlt : x < free.size := hx.lt_size
      have htrue : free[x] = true := by
        simpa [IsFree, Array.getElem?_eq_getElem hlt] using hx
      have hpos : 0 < free.count true :=
        Array.count_pos_iff.mpr (htrue ▸ Array.getElem_mem hlt)
      -- taking a free place makes one place less free
      have hset : (free.setIfInBounds x false).count true = free.count true - 1 := by
        rw [Array.setIfInBounds_def, dif_pos hlt, Array.count_set hlt, htrue]
        simp
      have hrest := ih (free.setIfInBounds x false)
      simp only [takeFree_cons_free hx, List.length_cons]
      omega
    · rw [takeFree_cons_taken hx]
      exact ih free

end Wave

namespace Digraph

variable {g : Digraph} {free : Array Bool} {entering : List Nat} {x y : Nat}

/-- The position can be entered from the row `entering` through free positions. -/
inductive Enters (g : Digraph) (free : Array Bool) (entering : List Nat) : Nat → Prop
  /-- A free position of the row is entered. -/
  | start {x : Nat} : x ∈ entering → IsFree free x → Enters g free entering x
  /-- A free successor of an entered position is entered. -/
  | step {x y : Nat} : Enters g free entering x → y ∈ g.next x → IsFree free y →
      Enters g free entering y

/-- A search enters free places only. -/
theorem Enters.isFree (h : g.Enters free entering x) : IsFree free x := by
  cases h with
  | start _ hx => exact hx
  | step _ _ hx => exact hx

private theorem not_enters_nil : ¬g.Enters free [] x := by
  intro h
  induction h with
  | start hx _ => simp at hx
  | step _ _ _ ih => exact ih

/-- What is entered after a wave has been taken could be entered before it. -/
private theorem Enters.of_takeFree
    (h : g.Enters (takeFree free entering).2 ((takeFree free entering).1.flatMap g.next) x) :
    g.Enters free entering x := by
  induction h with
  | start hx hfree =>
    obtain ⟨w, hw, hwx⟩ := List.mem_flatMap.mp hx
    obtain ⟨hwe, hwf⟩ := mem_takeFree_iff.mp hw
    exact .step (.start hwe hwf) hwx (isFree_takeFree_iff.mp hfree).1
  | step _ hy hfree ih => exact .step ih hy (isFree_takeFree_iff.mp hfree).1

/-- What can be entered is in the next wave, or can be entered after that wave. -/
private theorem Enters.takeFree_cases (h : g.Enters free entering x) :
    x ∈ (takeFree free entering).1 ∨
      g.Enters (takeFree free entering).2 ((takeFree free entering).1.flatMap g.next) x := by
  induction h with
  | start hx hfree => exact Or.inl (mem_takeFree_iff.mpr ⟨hx, hfree⟩)
  | @step x y _ hy hfree ih =>
    -- a position of the row itself is in the wave; any other one stays free after it
    by_cases hye : y ∈ entering
    · exact Or.inl (mem_takeFree_iff.mpr ⟨hye, hfree⟩)
    · have hleft : IsFree (takeFree free entering).2 y := isFree_takeFree_iff.mpr ⟨hfree, hye⟩
      rcases ih with hx | hx
      · exact Or.inr (.start (List.mem_flatMap.mpr ⟨x, hx, hy⟩) hleft)
      · exact Or.inr (.step hx hy hleft)

/-- A search is over when no free place is entered. -/
private theorem waves_succ_of_nil (fuel : Nat) (h : (takeFree free entering).1 = []) :
    g.waves (fuel + 1) free entering = [] := by
  rw [waves]
  split
  · rfl
  next wave _ heq => simp_all

/-- Otherwise the free places form a wave, and the search goes on behind it. -/
private theorem waves_succ_of_ne_nil (fuel : Nat) (h : (takeFree free entering).1 ≠ []) :
    g.waves (fuel + 1) free entering = (takeFree free entering).1 ::
      g.waves fuel (takeFree free entering).2 ((takeFree free entering).1.flatMap g.next) := by
  rw [waves]
  split
  next heq => simp_all
  next heq => simp_all

/-! ## The whole search -/

/-- Everything in a wave can be entered. -/
private theorem enters_of_mem_waves {fuel : Nat} (h : x ∈ (g.waves fuel free entering).flatten) :
    g.Enters free entering x := by
  -- wave by wave: what is entered behind a wave is entered by the whole search
  induction fuel generalizing free entering with
  | zero => simp [waves] at h
  | succ fuel ih =>
    by_cases hnil : (takeFree free entering).1 = []
    · simp [waves_succ_of_nil fuel hnil] at h
    · rw [waves_succ_of_ne_nil fuel hnil, List.flatten_cons, List.mem_append] at h
      rcases h with h | h
      · obtain ⟨hx, hfree⟩ := mem_takeFree_iff.mp h
        exact .start hx hfree
      · exact (ih h).of_takeFree

/-- As many waves as there are free positions hold everything that can be entered. -/
private theorem mem_waves_of_enters {fuel : Nat} (hfuel : free.count true ≤ fuel)
    (h : g.Enters free entering x) : x ∈ (g.waves fuel free entering).flatten := by
  induction fuel generalizing free entering with
  | zero =>
    -- without free positions nothing can be entered
    have hlt : x < free.size := h.isFree.lt_size
    have htrue : free[x] = true := by
      simpa [IsFree, Array.getElem?_eq_getElem hlt] using h.isFree
    have hpos : 0 < free.count true := Array.count_pos_iff.mpr (htrue ▸ Array.getElem_mem hlt)
    omega
  | succ fuel ih =>
    have hcount := count_takeFree free entering
    by_cases hnil : (takeFree free entering).1 = []
    · -- an empty wave leaves nowhere to go on from
      rcases h.takeFree_cases with hx | hx
      · simp [hnil] at hx
      · rw [hnil, List.flatMap_nil] at hx
        exact absurd hx not_enters_nil
    · -- the wave is not empty, so fewer positions are free after it and the fuel still suffices
      rw [waves_succ_of_ne_nil fuel hnil, List.flatten_cons, List.mem_append]
      have hpos : 0 < (takeFree free entering).1.length := List.length_pos_iff.mpr hnil
      exact h.takeFree_cases.imp_right (ih (by omega))

/-- No place is entered twice, since those of earlier waves are taken. -/
private theorem nodup_flatten_waves (g : Digraph) (fuel : Nat) (free : Array Bool)
    (entering : List Nat) : (g.waves fuel free entering).flatten.Nodup := by
  induction fuel generalizing free entering with
  | zero => simp [waves]
  | succ fuel ih =>
    by_cases hnil : (takeFree free entering).1 = []
    · simp [waves_succ_of_nil fuel hnil]
    · rw [waves_succ_of_ne_nil fuel hnil, List.flatten_cons, List.nodup_append]
      refine ⟨nodup_takeFree entering, ih _ _, ?_⟩
      rintro x hx y hy rfl
      -- later waves only take what this wave has left free
      have hleft := (enters_of_mem_waves hy).isFree
      exact (isFree_takeFree_iff.mp hleft).2 (mem_takeFree_iff.mp hx).1

/-- The position can be entered from the row `entering` along that many edges through free
positions. -/
inductive EntersAfter (g : Digraph) (free : Array Bool) (entering : List Nat) : Nat → Nat → Prop
  /-- A free position of the row is entered at once. -/
  | start {x : Nat} : x ∈ entering → IsFree free x → EntersAfter g free entering 0 x
  /-- A free successor of an entered position is entered one edge later. -/
  | step {n x y : Nat} : EntersAfter g free entering n x → y ∈ g.next x → IsFree free y →
      EntersAfter g free entering (n + 1) y

/-- What is entered is entered after some number of steps. -/
theorem enters_iff_exists_entersAfter :
    g.Enters free entering x ↔ ∃ n, g.EntersAfter free entering n x := by
  constructor
  · intro h
    induction h with
    | start hx hfree => exact ⟨0, .start hx hfree⟩
    | step _ hy hfree ih =>
      obtain ⟨n, hn⟩ := ih
      exact ⟨n + 1, .step hn hy hfree⟩
  · rintro ⟨n, h⟩
    induction h with
    | start hx hfree => exact .start hx hfree
    | step _ hy hfree ih => exact .step ih hy hfree

/-- What is entered after a wave has been taken could be entered before it, one edge later. -/
private theorem EntersAfter.of_takeFree {n : Nat}
    (h : g.EntersAfter (takeFree free entering).2 ((takeFree free entering).1.flatMap g.next) n x) :
    g.EntersAfter free entering (n + 1) x := by
  induction h with
  | start hx hfree =>
    obtain ⟨w, hw, hwx⟩ := List.mem_flatMap.mp hx
    obtain ⟨hwe, hwf⟩ := mem_takeFree_iff.mp hw
    exact .step (.start hwe hwf) hwx (isFree_takeFree_iff.mp hfree).1
  | step _ hy hfree ih => exact .step ih hy (isFree_takeFree_iff.mp hfree).1

/-- What can be entered along some edges is in the next wave, or can be entered after that wave
along fewer edges. -/
private theorem EntersAfter.takeFree_cases {n : Nat} (h : g.EntersAfter free entering n x) :
    x ∈ (takeFree free entering).1 ∨ ∃ m < n,
      g.EntersAfter (takeFree free entering).2 ((takeFree free entering).1.flatMap g.next) m x := by
  -- a step that leaves the first wave is one step shorter behind it
  induction h with
  | start hx hfree => exact Or.inl (mem_takeFree_iff.mpr ⟨hx, hfree⟩)
  | @step n x y _ hy hfree ih =>
    by_cases hye : y ∈ entering
    · exact Or.inl (mem_takeFree_iff.mpr ⟨hye, hfree⟩)
    · have hleft : IsFree (takeFree free entering).2 y := isFree_takeFree_iff.mpr ⟨hfree, hye⟩
      rcases ih with hx | ⟨m, hm, hx⟩
      · exact Or.inr ⟨0, by omega, .start (List.mem_flatMap.mpr ⟨x, hx, hy⟩) hleft⟩
      · exact Or.inr ⟨m + 1, by omega, .step hx hy hleft⟩

/-- A wave holds positions that need as many edges as there are waves before it. -/
private theorem isLeast_of_mem_wave {fuel n : Nat} {wave : List Nat}
    (hwave : (g.waves fuel free entering)[n]? = some wave) (hx : x ∈ wave) :
    IsLeast {k | g.EntersAfter free entering k x} n := by
  induction fuel generalizing free entering n with
  | zero => simp [waves] at hwave
  | succ fuel ih =>
    by_cases hnil : (takeFree free entering).1 = []
    · simp [waves_succ_of_nil fuel hnil] at hwave
    · rw [waves_succ_of_ne_nil fuel hnil] at hwave
      cases n with
      | zero =>
        obtain rfl := Option.some.inj hwave
        obtain ⟨hentering, hfree⟩ := mem_takeFree_iff.mp hx
        exact ⟨.start hentering hfree, fun k _ => Nat.zero_le k⟩
      | succ n =>
        rw [List.getElem?_cons_succ] at hwave
        obtain ⟨hafter, hleast⟩ := ih hwave
        refine ⟨hafter.of_takeFree, fun k hk => ?_⟩
        -- the position is still free after the first wave, so it is not in that wave
        have hfree := (enters_iff_exists_entersAfter.mpr ⟨n, hafter⟩).isFree
        have hnot : x ∉ (takeFree free entering).1 := fun hmem =>
          (isFree_takeFree_iff.mp hfree).2 (mem_takeFree_iff.mp hmem).1
        obtain ⟨m, hmk, hm⟩ := hk.takeFree_cases.resolve_left hnot
        have hnm : n ≤ m := hleast hm
        omega

/-- A sweep lists exactly the positions that can be entered. -/
theorem mem_sweep_iff (hsize : free.size = g.size) :
    x ∈ g.sweep free entering ↔ g.Enters free entering x := by
  refine ⟨enters_of_mem_waves, mem_waves_of_enters ?_⟩
  rw [← hsize]
  exact Array.count_le_size

/-- A sweep lists no position twice. -/
theorem nodup_sweep (g : Digraph) (free : Array Bool) (entering : List Nat) :
    (g.sweep free entering).Nodup :=
  nodup_flatten_waves g g.size free entering

/-- A sweep lists positions that need fewer edges before those that need more. -/
theorem exists_distance_sweep (g : Digraph) (free : Array Bool) (entering : List Nat) :
    ∃ distance : Nat → Nat,
      (∀ x ∈ g.sweep free entering,
        IsLeast {k | g.EntersAfter free entering k x} (distance x)) ∧
      (g.sweep free entering).Pairwise fun x y => distance x ≤ distance y := by
  -- the least number of edges to a position is the number of waves before its own
  let distance x := sInf {k | g.EntersAfter free entering k x}
  have hwave : ∀ n wave, (g.waves g.size free entering)[n]? = some wave →
      ∀ x ∈ wave, IsLeast {k | g.EntersAfter free entering k x} (distance x) ∧ distance x = n := by
    intro n wave hn x hx
    have hleast := isLeast_of_mem_wave hn hx
    have hdistance : distance x = n := hleast.csInf_eq
    exact ⟨hdistance ▸ hleast, hdistance⟩
  refine ⟨distance, fun x hx => ?_, ?_⟩
  · obtain ⟨wave, hmem, hx⟩ := List.mem_flatten.mp hx
    obtain ⟨n, hn⟩ := List.getElem?_of_mem hmem
    exact (hwave n wave hn x hx).1
  · rw [sweep, List.pairwise_flatten]
    refine ⟨fun wave hmem => ?_, List.pairwise_iff_getElem.mpr fun m n hm hn hlt x hx y hy => ?_⟩
    · obtain ⟨n, hn⟩ := List.getElem?_of_mem hmem
      refine List.pairwise_iff_forall_sublist.mpr fun {x y} hsub => ?_
      have hx := (hwave n wave hn x (hsub.subset (by simp))).2
      have hy := (hwave n wave hn y (hsub.subset (by simp))).2
      omega
    · have hx := (hwave m _ (List.getElem?_eq_getElem hm) x hx).2
      have hy := (hwave n _ (List.getElem?_eq_getElem hn) y hy).2
      omega

@[simp]
theorem size_allFree (g : Digraph) : g.allFree.size = g.size := by
  simp [allFree]

@[simp]
theorem size_allFreeBut (g : Digraph) (x : Nat) : (g.allFreeBut x).size = g.size := by
  simp [allFreeBut]

@[simp]
theorem isFree_allFree : IsFree g.allFree x ↔ x < g.size := by
  by_cases hx : x < g.size <;> simp [IsFree, allFree, hx]

@[simp]
theorem isFree_allFreeBut : IsFree (g.allFreeBut y) x ↔ x < g.size ∧ x ≠ y := by
  rw [allFreeBut, isFree_setIfInBounds_false, isFree_allFree]

/-- From the successors of a position a search enters what lies at the end of a nonempty path
whose later positions are free. -/
theorem enters_next_iff :
    g.Enters free (g.next x) y ↔ TransGen (fun a b => b ∈ g.next a ∧ IsFree free b) x y := by
  constructor
  · intro h
    induction h with
    | start hy hfree => exact .single ⟨hy, hfree⟩
    | step _ hy hfree ih => exact ih.tail ⟨hy, hfree⟩
  · intro h
    induction h with
    | single h => exact .start h.1 h.2
    | tail _ h ih => exact .step ih h.1 h.2

/-! ## Tables of searches -/

/-- Marking places in a row marks those that the table has. -/
private theorem isFree_foldl_setIfInBounds {table : Array Bool} {xs : List Nat} :
    IsFree (xs.foldl (fun table x => table.setIfInBounds x true) table) y ↔
      IsFree table y ∨ y < table.size ∧ y ∈ xs := by
  induction xs generalizing table with
  | nil => simp
  | cons x xs ih =>
    rw [List.foldl_cons, ih, Array.size_setIfInBounds, List.mem_cons]
    have hset : IsFree (table.setIfInBounds x true) y ↔
        IsFree table y ∨ y < table.size ∧ y = x := by
      by_cases hxy : x = y
      · subst hxy
        by_cases hlt : x < table.size
        · simp [IsFree, hlt]
        · simp [IsFree, hlt]
      · simp [IsFree, Array.getElem?_setIfInBounds_ne hxy, Ne.symm hxy]
    rw [hset, or_assoc, ← and_or_left]

/-- A table of marks is true exactly at the marked positions below its size. -/
theorem getD_marks_iff {n : Nat} {xs : List Nat} :
    (marks n xs).getD y false = true ↔ y < n ∧ y ∈ xs := by
  have hnone : ¬IsFree (Array.replicate n false) y := by
    by_cases hy : y < n <;> simp [IsFree, hy]
  change IsFree (marks n xs) y ↔ y < n ∧ y ∈ xs
  rw [marks, isFree_foldl_setIfInBounds, Array.size_replicate]
  simp [hnone]

/-- The entries of a table whose rows are given by a function of their position. -/
theorem entry_map_range_iff {n row column : Nat} {rows : Nat → Array Bool} :
    entry ((List.range n).map rows).toArray row column = true ↔
      row < n ∧ (rows row).getD column false = true := by
  by_cases hrow : row < n
  · simp [entry, hrow]
  · simp [entry, hrow]

/-- An edge between two positions of the graph. -/
def Edge (g : Digraph) (x y : Nat) : Prop :=
  y ∈ g.next x ∧ y < g.size

/-- Places outside of the graph have no successors. -/
theorem lt_size_of_mem_next (h : y ∈ g.next x) : x < g.size := by
  by_contra hx
  simp [next, size] at h hx
  simp [Array.getElem?_eq_none hx] at h

theorem Edge.lt_size (h : g.Edge x y) : x < g.size :=
  lt_size_of_mem_next h.1

/-- A search of the whole graph from one position enters what the position leads to. -/
theorem enters_allFree_iff :
    g.Enters g.allFree [x] y ↔ x < g.size ∧ ReflTransGen g.Edge x y := by
  constructor
  · intro h
    induction h with
    | start hy hfree =>
      rw [List.mem_singleton] at hy
      subst hy
      exact ⟨isFree_allFree.mp hfree, .refl⟩
    | step _ hy hfree ih => exact ⟨ih.1, ih.2.tail ⟨hy, isFree_allFree.mp hfree⟩⟩
  · rintro ⟨hx, h⟩
    induction h with
    | refl => exact .start (List.mem_singleton_self x) (isFree_allFree.mpr hx)
    | tail _ h ih => exact .step ih h.1 (isFree_allFree.mpr h.2)

/-- Edges stay inside the graph. -/
theorem lt_size_of_reflTransGen (hx : x < g.size) (h : ReflTransGen g.Edge x y) : y < g.size := by
  cases h with
  | refl => exact hx
  | tail _ h => exact h.2

end Digraph

end Rejoin
