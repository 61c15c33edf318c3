import Rejoin.Dependence.Branches
import Rejoin.Dependence.DefUse

/-!
# Analysis sessions

A session answers questions about the functions of one program. Graphs, post-dominators, numberings
and def-use edges are kept once they have been computed, since several questions need them.
-/

namespace Rejoin

/-- A program under analysis and what is known about its functions, by their place in it. -/
structure Session where
  /-- The program. -/
  program : Program
  /-- The instruction set by which it is analysed. -/
  isa : Isa
  /-- The control flow graphs computed so far. -/
  graphs : List (Nat × Graph) := []
  /-- The post-dominators computed so far. -/
  postDominators : List (Nat × PostDominators) := []
  /-- The numberings computed so far. -/
  numberings : List (Nat × Numbering) := []
  /-- The def-use edges computed so far. -/
  defUses : List (Nat × DefUse) := []
deriving DecidableEq, Repr, Inhabited

/-- A question to a session. A question that fails keeps what the session has learned. -/
abbrev Query := ExceptT AnalysisError (StateM Session)

namespace Session

/-- The function at a place of the program. -/
def function (ordinal : Nat) : Query Func := do
  match (← get).program.functions[ordinal]? with
  | some f => pure f
  | none => throw (.unknownFunction ordinal)

/-- The control flow graph of a function that has blocks. -/
def graph (ordinal : Nat) : Query Graph := do
  match (← get).graphs.lookup ordinal with
  | some g => pure g
  | none =>
    let f ← function ordinal
    if f.blocks.isEmpty then throw (.declaration f.name)
    match Graph.ofBlocks? f.transfers with
    | none => throw .danglingTarget
    | some g =>
      modify fun s => { s with graphs := (ordinal, g) :: s.graphs }
      pure g

/-- The post-dominators of a function that has blocks. -/
def postDominance (ordinal : Nat) : Query PostDominators := do
  let g ← graph ordinal
  match (← get).postDominators.lookup ordinal with
  | some pd => pure pd
  | none =>
    let pd := PostDominators.ofGraph g
    modify fun s => { s with postDominators := (ordinal, pd) :: s.postDominators }
    pure pd

/-- The numbering of a function. -/
def numbering (ordinal : Nat) : Query Numbering := do
  let f ← function ordinal
  match (← get).numberings.lookup ordinal with
  | some numbering => pure numbering
  | none =>
    let numbering := Numbering.ofFunc (← get).isa (functionId ordinal) f
    modify fun s => { s with numberings := (ordinal, numbering) :: s.numberings }
    pure numbering

/-- The def-use edges of a function. -/
def defUse (ordinal : Nat) : Query DefUse := do
  let f ← function ordinal
  match (← get).defUses.lookup ordinal with
  | some edges => pure edges
  | none =>
    let edges := DefUse.ofFunc f
    modify fun s => { s with defUses := (ordinal, edges) :: s.defUses }
    pure edges

/-- The dependents of the branches of a function. A function without blocks has none. -/
def dependencies (ordinal : Nat) : Query Dependencies := do
  let f ← function ordinal
  let numbering ← numbering ordinal
  if f.blocks.isEmpty then return Dependencies.empty f numbering
  let graph ← graph ordinal
  let pd ← postDominance ordinal
  let edges ← defUse ordinal
  let s : Setting :=
    { func := f
      isa := (← get).isa
      numbering, graph
      consumers := edges.consumers
      point? := pd.immediate? }
  match Dependencies.analyse s with
  | .ok result => pure result
  | .error error => throw error

/-- Ask a question: the answer, and the session after it. -/
def ask {α : Type} (session : Session) (query : Query α) : Except AnalysisError α × Session :=
  query.run.run session

end Session

/-- Analyse every function of a program, in order. Fails with the first failure. -/
def Program.analyse (program : Program) (isa : Isa) :
    Except AnalysisError (List Dependencies) :=
  let session : Session := { program, isa }
  (session.ask ((List.range program.functions.length).mapM Session.dependencies)).1

end Rejoin
