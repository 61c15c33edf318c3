import Mathlib.Data.List.Chain
import Mathlib.Logic.Relation
import Mathlib.Tactic.Common

/-!
# Post-dominance and control dependence

A graph with exits has edges and a set of nodes that lead to a virtual exit. A node `y`
post-dominates `x` if every path from `x` to the virtual exit contains `y`. All proofs go through
the complement: `x` escapes `y` if some path from `x` to the virtual exit avoids `y`. That is an
inductive predicate, so arguments about paths become inductions along an escape.

Main results, for graphs in which every node leads to the virtual exit:

* `ExitGraph.PostDominates.antisymm` — post-dominance is antisymmetric;
* `ExitGraph.exists_isImmediate` — a node with any other post-dominator has an immediate one;
* `ExitGraph.transGen_avoiding_iff` — the nodes entered from `x` before its immediate
  post-dominator are those transitively control dependent on `x`;
* `ExitGraph.IsImmediate.eq_or_reaches` and `ExitGraph.transGen_avoiding_of_nested` — the immediate
  post-dominator of a node inside a region bounds the region or is in it, and the region of the node
  is part of it.
-/

open Relation

namespace Rejoin

/-- A graph in which some nodes lead to a virtual exit. -/
structure ExitGraph (α : Type) where
  /-- The edges between nodes. -/
  Edge : α → α → Prop
  /-- The nodes with an edge to the virtual exit. -/
  Exit : α → Prop

namespace ExitGraph

variable {α β : Type} {G : ExitGraph α} {x y z p q : α}

/-- The edges of the graph extended with the virtual exit, which is `none`. -/
def Step (G : ExitGraph α) : Option α → Option α → Prop
  | some x, some y => G.Edge x y
  | some x, none => G.Exit x
  | none, _ => False

/-- The nodes of a path from `x` to the virtual exit, both ends included. -/
def IsExitPath (G : ExitGraph α) (x : α) (path : List (Option α)) : Prop :=
  path.head? = some (some x) ∧ path.getLast? = some none ∧ path.IsChain G.Step

/-- Every path from `x` to the virtual exit contains `y`. -/
def PostDominates (G : ExitGraph α) (y x : α) : Prop :=
  ∀ path, G.IsExitPath x path → some y ∈ path

/-- Some path from a node to the virtual exit avoids `y`. -/
inductive Escapes (G : ExitGraph α) (y : α) : α → Prop
  /-- The virtual exit is reached directly. -/
  | exit {x : α} : x ≠ y → G.Exit x → Escapes G y x
  /-- The virtual exit is reached through a successor. -/
  | step {x z : α} : x ≠ y → G.Edge x z → Escapes G y z → Escapes G y x

/-- Some path leads from a node to the virtual exit. -/
inductive Leaves (G : ExitGraph α) : α → Prop
  /-- The virtual exit is reached directly. -/
  | exit {x : α} : G.Exit x → Leaves G x
  /-- The virtual exit is reached through a successor. -/
  | step {x z : α} : G.Edge x z → Leaves G z → Leaves G x

/-- Another node that post-dominates `x` and that every other post-dominator of `x`
post-dominates. -/
def IsImmediate (G : ExitGraph α) (p x : α) : Prop :=
  p ≠ x ∧ G.PostDominates p x ∧ ∀ q, q ≠ x → G.PostDominates q x → G.PostDominates q p

/-- `y` is control dependent on `x`: one way out of `x` always leads to `y`, but `x` alone does
not. -/
def ControlDependent (G : ExitGraph α) (x y : α) : Prop :=
  ∃ s, G.Edge x s ∧ G.PostDominates y s ∧ ¬(y ≠ x ∧ G.PostDominates y x)

/-- An edge that does not enter `p`. -/
def EdgeAvoiding (G : ExitGraph α) (p x y : α) : Prop :=
  G.Edge x y ∧ y ≠ p

/-! ## Paths and escapes -/

/-- Put an edge in front of a path to the virtual exit. -/
private theorem IsExitPath.cons {path : List (Option α)} (hedge : G.Edge x z)
    (h : G.IsExitPath z path) : G.IsExitPath x (some x :: path) := by
  obtain ⟨hhead, hlast, hchain⟩ := h
  cases path with
  | nil => simp at hhead
  | cons node path =>
    obtain rfl : node = some z := by simpa using hhead
    exact ⟨rfl, by simpa using hlast, List.isChain_cons_cons.mpr ⟨hedge, hchain⟩⟩

/-- An escape gives a path that avoids the node. -/
private theorem Escapes.exists_path (h : G.Escapes y x) :
    ∃ path, G.IsExitPath x path ∧ some y ∉ path := by
  induction h with
  | @exit x hne hexit =>
    refine ⟨[some x, none], ⟨rfl, rfl, ?_⟩, ?_⟩
    · exact List.isChain_cons_cons.mpr ⟨hexit, List.isChain_singleton _⟩
    · simpa using Ne.symm hne
  | @step x z hne hedge _ ih =>
    obtain ⟨path, hpath, hy⟩ := ih
    refine ⟨some x :: path, hpath.cons hedge, ?_⟩
    rw [List.mem_cons, not_or]
    exact ⟨fun h => hne (Option.some.inj h).symm, hy⟩

/-- A path that avoids a node gives an escape. -/
private theorem escapes_of_path {path : List (Option α)} (h : G.IsExitPath x path)
    (hy : some y ∉ path) : G.Escapes y x := by
  obtain ⟨hhead, hlast, hchain⟩ := h
  induction path generalizing x with
  | nil => simp at hhead
  | cons node path ih =>
    obtain rfl : node = some x := by simpa using hhead
    rw [List.mem_cons, not_or] at hy
    have hne : x ≠ y := fun h => hy.1 (congrArg some h.symm)
    -- the virtual exit has no successor, so the path ends where it is first met
    match path, hlast, hchain with
    | [], hlast, _ => simp at hlast
    | none :: _, _, hchain => exact .exit hne (List.isChain_cons_cons.mp hchain).1
    | some z :: rest, hlast, hchain =>
      obtain ⟨hedge, hrest⟩ := List.isChain_cons_cons.mp hchain
      exact .step hne hedge (ih hy.2 rfl (by simpa using hlast) hrest)

/-- A node post-dominates another exactly when the other cannot escape it. -/
theorem postDominates_iff : G.PostDominates y x ↔ ¬G.Escapes y x := by
  constructor
  · intro h hesc
    obtain ⟨path, hpath, hy⟩ := hesc.exists_path
    exact hy (h path hpath)
  · intro h path hpath
    by_contra hy
    exact h (escapes_of_path hpath hy)

/-- Escapes are kept by a map that keeps edges and exits and tells the avoided node from the
others on the way. -/
theorem Escapes.map {H : ExitGraph β} (f : α → β)
    (hedge : ∀ a b, a ≠ y → G.Edge a b → f a ≠ f y ∧ H.Edge (f a) (f b))
    (hexit : ∀ a, a ≠ y → G.Exit a → f a ≠ f y ∧ H.Exit (f a)) (h : G.Escapes y x) :
    H.Escapes (f y) (f x) := by
  induction h with
  | exit hne hx =>
    obtain ⟨hne', hx'⟩ := hexit _ hne hx
    exact .exit hne' hx'
  | step hne hxz _ ih =>
    obtain ⟨hne', hxz'⟩ := hedge _ _ hne hxz
    exact .step hne' hxz' ih

/-! ## The order of post-dominators -/

/-- A post-dominator that a node is not itself also post-dominates the node's successors. -/
theorem PostDominates.of_edge (h : G.PostDominates y x) (hne : x ≠ y) (hedge : G.Edge x z) :
    G.PostDominates y z := by
  rw [postDominates_iff] at h ⊢
  exact fun hesc => h (.step hne hedge hesc)

/-- A node that leads to the virtual exit directly has no other post-dominator. -/
theorem PostDominates.eq_of_exit (h : G.PostDominates y x) (hexit : G.Exit x) : x = y := by
  by_contra hne
  exact postDominates_iff.mp h (.exit hne hexit)

theorem PostDominates.refl (G : ExitGraph α) (x : α) : G.PostDominates x x := by
  rw [postDominates_iff]
  intro h
  cases h with
  | exit hne _ => exact hne rfl
  | step hne _ _ => exact hne rfl

/-- Follow an escape up to a post-dominator of its start: the rest is an escape too. -/
private theorem Escapes.of_postDominates (h : G.Escapes z x) (hy : G.PostDominates y x) :
    G.Escapes z y := by
  induction h with
  | exit hne hexit =>
    obtain rfl := hy.eq_of_exit hexit
    exact .exit hne hexit
  | @step x w hne hedge hesc ih =>
    -- either the post-dominator is met here, or it post-dominates the next node as well
    by_cases hxy : x = y
    · subst hxy
      exact .step hne hedge hesc
    · exact ih (hy.of_edge hxy hedge)

theorem PostDominates.trans (hzy : G.PostDominates z y) (hyx : G.PostDominates y x) :
    G.PostDominates z x := by
  rw [postDominates_iff] at hzy ⊢
  exact fun hesc => hzy (hesc.of_postDominates hyx)

/-- A path to the virtual exit passes through every post-dominator of its start. -/
theorem PostDominates.reaches_and_leaves (h : G.PostDominates y x) (hx : G.Leaves x) :
    ReflTransGen G.Edge x y ∧ G.Leaves y := by
  -- along the path to the virtual exit, until it meets the post-dominator
  induction hx with
  | exit hexit =>
    obtain rfl := h.eq_of_exit hexit
    exact ⟨.refl, .exit hexit⟩
  | @step x w hedge hw ih =>
    by_cases hxy : x = y
    · subst hxy
      exact ⟨.refl, .step hedge hw⟩
    · obtain ⟨hreach, hleaves⟩ := ih (h.of_edge hxy hedge)
      exact ⟨.head hedge hreach, hleaves⟩

/-- Two nodes that post-dominate each other are one, if they lead to the virtual exit. -/
theorem PostDominates.antisymm (hyx : G.PostDominates y x) (hxy : G.PostDominates x y)
    (hleaves : G.Leaves x) : x = y := by
  by_contra hne
  -- a path to the virtual exit meets neither node, whichever of them would come last on it
  have hboth : ∀ u, G.Leaves u → G.Escapes x u ∧ G.Escapes y u := by
    intro u hu
    induction hu with
    | @exit u hexit =>
      have hux : u ≠ x := by
        rintro rfl
        exact hne (hyx.eq_of_exit hexit)
      have huy : u ≠ y := by
        rintro rfl
        exact hne (hxy.eq_of_exit hexit).symm
      exact ⟨.exit hux hexit, .exit huy hexit⟩
    | @step u w hedge _ ih =>
      have hux : u ≠ x := by
        rintro rfl
        exact postDominates_iff.mp hyx (.step hne hedge ih.2)
      have huy : u ≠ y := by
        rintro rfl
        exact postDominates_iff.mp hxy (.step (Ne.symm hne) hedge ih.1)
      exact ⟨.step hux hedge ih.1, .step huy hedge ih.2⟩
  exact postDominates_iff.mp hyx (hboth x hleaves).2

/-- On a path to the virtual exit, all of whose nodes so far are post-dominated by the strict
post-dominators of `x`, the first such post-dominator is immediate. -/
private theorem exists_isImmediate_of_leaves {u : α} (hu : G.Leaves u)
    (hall : ∀ r, r ≠ x → G.PostDominates r x → G.PostDominates r u)
    (hq : q ≠ x) (hqx : G.PostDominates q x) : ∃ p, G.IsImmediate p x := by
  induction hu with
  | @exit u hexit =>
    obtain rfl := (hall q hq hqx).eq_of_exit hexit
    exact ⟨u, hq, hqx, hall⟩
  | @step u w hedge _ ih =>
    by_cases hstrict : u ≠ x ∧ G.PostDominates u x
    · exact ⟨u, hstrict.1, hstrict.2, hall⟩
    · -- `u` is no strict post-dominator, so those of `x` still lie ahead
      refine ih fun r hr hrx => ?_
      have hur : u ≠ r := by
        rintro rfl
        exact hstrict ⟨hr, hrx⟩
      exact (hall r hr hrx).of_edge hur hedge

/-- A node with another post-dominator has an immediate one. -/
theorem exists_isImmediate (hleaves : G.Leaves x) (hq : q ≠ x) (hqx : G.PostDominates q x) :
    ∃ p, G.IsImmediate p x :=
  exists_isImmediate_of_leaves hleaves (fun _ _ h => h) hq hqx

/-- A node has at most one immediate post-dominator. -/
theorem IsImmediate.unique (hp : G.IsImmediate p x) (hq : G.IsImmediate q x)
    (hx : G.Leaves x) : p = q :=
  PostDominates.antisymm (hp.2.2 q hq.1 hq.2.1) (hq.2.2 p hp.1 hp.2.1)
    (hp.2.1.reaches_and_leaves hx).2

/-! ## Control dependence -/

section ControlDependence

variable (hleaves : ∀ a b, G.Edge a b → G.Leaves b)

/-- A node entered before `p` from a node that `p` strictly post-dominates is itself strictly
post-dominated by `p`. -/
theorem postDominates_of_transGen (hp : p ≠ x) (hpx : G.PostDominates p x)
    (h : TransGen (G.EdgeAvoiding p) x y) : p ≠ y ∧ G.PostDominates p y := by
  induction h with
  | single h => exact ⟨Ne.symm h.2, hpx.of_edge (Ne.symm hp) h.1⟩
  | tail _ h ih => exact ⟨Ne.symm h.2, ih.2.of_edge (Ne.symm ih.1) h.1⟩

/-- From a node that `y` post-dominates, `y` is entered before `p`, unless `y` post-dominates
`p`. -/
private theorem reaches_or_postDominates (hx : G.Leaves x) (hyx : G.PostDominates y x) :
    G.PostDominates y p ∨ x ≠ p ∧ ReflTransGen (G.EdgeAvoiding p) x y := by
  induction hx with
  | @exit x hexit =>
    obtain rfl := hyx.eq_of_exit hexit
    by_cases hxp : x = p
    · exact Or.inl (hxp ▸ hyx)
    · exact Or.inr ⟨hxp, .refl⟩
  | @step x w hedge _ ih =>
    -- along one path to the virtual exit: `p` is met first, or `y` is, or the path goes on
    by_cases hxp : x = p
    · exact Or.inl (hxp ▸ hyx)
    by_cases hxy : x = y
    · subst hxy
      exact Or.inr ⟨hxp, .refl⟩
    · rcases ih (hyx.of_edge hxy hedge) with h | ⟨hwp, hreach⟩
      · exact Or.inl h
      · exact Or.inr ⟨hxp, .head ⟨hedge, hwp⟩ hreach⟩

/-- The immediate post-dominator of a node that `p` strictly post-dominates is `p` itself or is
entered before `p`. -/
theorem IsImmediate.eq_or_reaches (hq : G.IsImmediate q x) (hx : G.Leaves x) (hp : p ≠ x)
    (hpx : G.PostDominates p x) : q = p ∨ ReflTransGen (G.EdgeAvoiding p) x q := by
  rcases reaches_or_postDominates hx hq.2.1 with hqp | ⟨-, hreach⟩
  · -- the two post-dominate each other
    exact Or.inl ((hq.2.2 p hp hpx).antisymm hqp (hq.2.1.reaches_and_leaves hx).2)
  · exact Or.inr hreach

include hleaves

/-- What is control dependent on a node that `p` strictly post-dominates is entered from it
before `p`. -/
private theorem ControlDependent.transGen (hp : p ≠ x) (hpx : G.PostDominates p x)
    (h : G.ControlDependent x y) : TransGen (G.EdgeAvoiding p) x y := by
  obtain ⟨s, hedge, hys, hnot⟩ := h
  have hs : G.Leaves s := hleaves x s hedge
  rcases reaches_or_postDominates hs hys with hyp | ⟨hsp, hreach⟩
  · -- then `y` post-dominates `x`, so it is `x`, and `x` and `p` post-dominate each other
    exfalso
    have hyx : y = x := by
      by_contra hne
      exact hnot ⟨hne, hyp.trans hpx⟩
    subst hyx
    exact hp (hyp.antisymm hpx (hpx.reaches_and_leaves (.step hedge hs)).2)
  · exact TransGen.head' ⟨hedge, hsp⟩ hreach

/-- A node that has been entered leads to the virtual exit. -/
private theorem leaves_of_transGen (h : TransGen (G.EdgeAvoiding p) x y) : G.Leaves y := by
  obtain ⟨v, -, hedge, -⟩ := TransGen.tail'_iff.mp h
  exact hleaves v y hedge

/-- A node entered from `x` before its immediate post-dominator does not strictly post-dominate
`x`. -/
private theorem IsImmediate.not_postDominates (hp : G.IsImmediate p x)
    (h : TransGen (G.EdgeAvoiding p) x y) : ¬(y ≠ x ∧ G.PostDominates y x) := by
  rintro ⟨hne, hyx⟩
  obtain ⟨hpy, hpdom⟩ := postDominates_of_transGen hp.1 hp.2.1 h
  -- `p` and `y` would post-dominate each other
  exact hpy (hpdom.antisymm (hp.2.2 y hne hyx) (leaves_of_transGen hleaves h)).symm

/-- What post-dominates a node of the region of `x`, but not strictly `x` itself, is transitively
control dependent on `x`. -/
private theorem controlDependent_of_transGen (hp : G.IsImmediate p x)
    (h : TransGen (G.EdgeAvoiding p) x z) (hyz : G.PostDominates y z)
    (hyx : ¬(y ≠ x ∧ G.PostDominates y x)) : TransGen G.ControlDependent x y := by
  induction h generalizing y with
  | single h => exact .single ⟨_, h.1, hyz, hyx⟩
  | @tail v w hv h ih =>
    by_cases hyv : y ≠ v ∧ G.PostDominates y v
    · exact ih hyv.2 hyx
    · -- `y` hangs on `v`, which by the induction hypothesis hangs on `x`
      have hxv : TransGen G.ControlDependent x v :=
        ih (PostDominates.refl G v) (hp.not_postDominates hleaves hv)
      exact hxv.tail ⟨w, h.1, hyz, hyv⟩

/-- The nodes entered from a node before its immediate post-dominator are those transitively
control dependent on it. -/
theorem transGen_avoiding_iff (hp : G.IsImmediate p x) :
    TransGen (G.EdgeAvoiding p) x y ↔ TransGen G.ControlDependent x y := by
  constructor
  · intro h
    exact controlDependent_of_transGen hleaves hp h (PostDominates.refl G y)
      (hp.not_postDominates hleaves h)
  · intro h
    induction h with
    | single h => exact h.transGen hleaves hp.1 hp.2.1
    | tail _ h ih =>
      -- `p` strictly post-dominates every node on the way, so the step lemma applies there too
      obtain ⟨hpv, hpdom⟩ := postDominates_of_transGen hp.1 hp.2.1 ih
      exact ih.trans (h.transGen hleaves hpv hpdom)

/-- Regions are nested: from a node of the region that `p` bounds, what is entered before the
immediate post-dominator of that node is in the region too. -/
theorem transGen_avoiding_of_nested (hp : p ≠ x) (hpx : G.PostDominates p x)
    (hxy : TransGen (G.EdgeAvoiding p) x y) (hq : G.IsImmediate q y)
    (hyz : TransGen (G.EdgeAvoiding q) y z) : TransGen (G.EdgeAvoiding p) x z := by
  obtain ⟨hpy, hpdom⟩ := postDominates_of_transGen hp hpx hxy
  -- `p` is no node of the inner region: `p` and `q` would post-dominate each other
  have hne : ∀ w, TransGen (G.EdgeAvoiding q) y w → w ≠ p := by
    rintro w hw rfl
    obtain ⟨hqw, hqdom⟩ := postDominates_of_transGen hq.1 hq.2.1 hw
    exact hqw (hqdom.antisymm (hq.2.2 w hpy hpdom) (leaves_of_transGen hleaves hw)).symm
  induction hyz with
  | single h => exact hxy.tail ⟨h.1, hne _ (.single h)⟩
  | tail hyv h ih => exact ih.tail ⟨h.1, hne _ (hyv.tail h)⟩

end ControlDependence

end ExitGraph

end Rejoin
