/-!
# Finite directed graphs

Graphs on the positions `0, 1, …, size - 1`, and searching them breadth first.

* `Digraph.waves` cuts a search into waves: each wave holds the positions first entered from the
  wave before it, in the order in which they are entered.
* `Digraph.sweep` is the whole search. Only positions that are free at the start are entered, and
  each of them once.
-/

namespace Rejoin

/-- A directed graph on the positions below its size, given by the successors of each position. -/
structure Digraph where
  /-- The successors of each position, in order. -/
  succs : Array (List Nat)
deriving DecidableEq, Repr, Inhabited

/-- The positions of `entering` that are free, each once, and who is free after they are taken. -/
def takeFree (free : Array Bool) : List Nat → List Nat × Array Bool
  | [] => ([], free)
  | x :: entering =>
    if free.getD x false then
      let (taken, left) := takeFree (free.setIfInBounds x false) entering
      (x :: taken, left)
    else takeFree free entering

/-- The table of size `n` that is true at the positions in `xs`. -/
def marks (n : Nat) (xs : List Nat) : Array Bool :=
  xs.foldl (fun table x => table.setIfInBounds x true) (Array.replicate n false)

/-- The entry of a table of rows; false outside it. -/
def entry (table : Array (Array Bool)) (row column : Nat) : Bool :=
  (table.getD row #[]).getD column false

namespace Digraph

/-- The number of positions. -/
def size (g : Digraph) : Nat :=
  g.succs.size

/-- The successors of a position; a position outside the graph has none. -/
def next (g : Digraph) (x : Nat) : List Nat :=
  g.succs.getD x []

/-- The positions from which an edge leads to `y`. -/
def preds (g : Digraph) (y : Nat) : List Nat :=
  (List.range g.size).filter fun x => (g.next x).contains y

/-- The graph with every edge turned round. -/
def reverse (g : Digraph) : Digraph :=
  ⟨((List.range g.size).map g.preds).toArray⟩

/-- Search breadth first through free positions, for at most `fuel` waves. `entering` is the row of
positions that the next wave is taken from. -/
def waves (g : Digraph) : Nat → Array Bool → List Nat → List (List Nat)
  | 0, _, _ => []
  | fuel + 1, free, entering =>
    match takeFree free entering with
    | ([], _) => []
    | (wave, left) => wave :: g.waves fuel left (wave.flatMap g.next)

/-- Every free position that can be entered from `entering` through free positions, in the order
of a breadth-first search. Every wave uses up a free position, so as many waves as there are
positions are enough. -/
def sweep (g : Digraph) (free : Array Bool) (entering : List Nat) : List Nat :=
  (g.waves g.size free entering).flatten

/-- The table in which every position is free. -/
def allFree (g : Digraph) : Array Bool :=
  Array.replicate g.size true

/-- The table in which every position but `x` is free. -/
def allFreeBut (g : Digraph) (x : Nat) : Array Bool :=
  g.allFree.setIfInBounds x false

end Digraph

end Rejoin
