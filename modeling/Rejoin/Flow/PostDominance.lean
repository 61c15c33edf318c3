import Rejoin.Flow.Digraph

/-!
# Post-dominance

Control that never leaves a region of a graph ends there, so every strongly connected component
without an edge out of it is an end of the graph. Its least position stands for it: these are the
exit roots. A position `y` post-dominates `x` if no way from `x` to an exit root avoids `y`. The
immediate post-dominator of `x` is the other post-dominator of `x` that all others post-dominate.

* `Digraph.components` lists the strongly connected components.
* `Digraph.exitRoots` lists the exit roots.
* `Digraph.escapes` tells which positions reach an exit root while avoiding a given one.
* `Digraph.immediates` gives the immediate post-dominator of every position.
-/

namespace Rejoin.Digraph

/-- The positions that `x` leads to and that lead to `x`; `back` is the graph with every edge turned
round. -/
def componentOf (g back : Digraph) (x : Nat) : List Nat :=
  let ahead := marks g.size (g.sweep g.allFree [x])
  (back.sweep back.allFree [x]).filter fun y => ahead.getD y false

/-- The components of the free positions of a row. The first free position gives a component, whose
positions are not free for those behind it. -/
def componentsFrom (g back : Digraph) : Array Bool → List Nat → List (List Nat)
  | _, [] => []
  | free, x :: later =>
    if free.getD x false then
      let component := g.componentOf back x
      component :: g.componentsFrom back (takeFree free component).2 later
    else g.componentsFrom back free later

/-- The strongly connected components, in the order of their least positions. -/
def components (g : Digraph) : List (List Nat) :=
  g.componentsFrom g.reverse g.allFree (List.range g.size)

/-- Set the entries of a table at the positions `xs` to `i`. -/
def fill (table : Array Nat) (xs : List Nat) (i : Nat) : Array Nat :=
  xs.foldl (fun table x => table.setIfInBounds x i) table

/-- The table of size `n` that holds at every position the place of its component. -/
def componentTable (n : Nat) (sccs : List (List Nat)) : Array Nat :=
  sccs.zipIdx.foldl (fun table scc => fill table scc.1 scc.2) (Array.replicate n 0)

/-- All edges from the positions `xs` lead to positions at which the table holds `i`. -/
def staysIn (g : Digraph) (table : Array Nat) (xs : List Nat) (i : Nat) : Bool :=
  (xs.flatMap g.next).all fun y => table[y]?.all (· == i)

/-- The least position of every component that no edge leaves, given the components. -/
def exitRootsOf (g : Digraph) (sccs : List (List Nat)) : List Nat :=
  let table := componentTable g.size sccs
  (sccs.zipIdx.filter fun scc => g.staysIn table scc.1 scc.2).filterMap fun scc => scc.1.min?

/-- The least position of every strongly connected component that no edge leaves. -/
def exitRoots (g : Digraph) : List Nat :=
  g.exitRootsOf g.components

/-- The table whose row `y` is true at the positions from which some way to an exit root
avoids `y`. -/
def escapes (g : Digraph) : Array (Array Bool) :=
  let back := g.reverse
  let roots := g.exitRoots
  ((List.range g.size).map fun y =>
    marks g.size (back.sweep (back.allFreeBut y) roots)).toArray

/-- The positions other than `x` that post-dominate `x`, given the table of escapes. -/
def strictPostDominators (escapes : Array (Array Bool)) (size x : Nat) : List Nat :=
  (List.range size).filter fun y => y != x && !entry escapes y x

/-- The immediate post-dominator of `x`, given the table of escapes. -/
def immediateIn? (escapes : Array (Array Bool)) (size x : Nat) : Option Nat :=
  let strict := strictPostDominators escapes size x
  strict.find? fun p => strict.all fun q => !entry escapes q p

/-- The immediate post-dominator of every position that has one. -/
def immediates (g : Digraph) : Array (Option Nat) :=
  let escapes := g.escapes
  ((List.range g.size).map (immediateIn? escapes g.size)).toArray

end Rejoin.Digraph
