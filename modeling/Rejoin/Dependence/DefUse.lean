import Rejoin.Machine.Func

/-!
# Definitions and uses

Every instruction that reads a value consumes every instruction of the function that defines a
value of that name. The consumers of all instructions are gathered at once, in one pass over what
the function reads.
-/

namespace Rejoin

/-- The consumers of each instruction. -/
structure DefUse where
  /-- Each instruction with its consumers. -/
  edges : List (InstId × List InstId)
deriving DecidableEq, Repr, Inhabited

namespace DefUse

/-- An instruction and what has been found to consume it. -/
structure Row where
  /-- The instruction. -/
  id : InstId
  /-- The value it defines. -/
  result : Option String
  /-- Its consumers so far, the latest first. -/
  readers : List InstId := []
deriving DecidableEq, Repr, Inhabited

/-- Note that an instruction reads the named value. Instructions are gone through in layout order,
so one that reads the value a second time is the latest. -/
def Row.note (reader : InstId) (row : Row) (name : String) : Row :=
  if row.result = some name ∧ row.readers.head? ≠ some reader then
    { row with readers := reader :: row.readers }
  else row

/-- Note in every row what an instruction reads, one value after the other. -/
def addReader (rows : List Row) (entry : InstId × Inst BlockId) : List Row :=
  entry.2.uses.foldl (fun rows name => rows.map fun row => row.note entry.1 name) rows

/-- The consumers of every instruction of a function. -/
def ofFunc (f : Func) : DefUse :=
  let rows : List Row := f.insts.map fun entry => { id := entry.1, result := entry.2.result }
  ⟨(f.insts.foldl addReader rows).map fun row => (row.id, row.readers.reverse)⟩

/-- The consumers of an instruction; an unknown instruction has none. -/
def consumers (defUse : DefUse) (id : InstId) : List InstId :=
  (defUse.edges.lookup id).getD []

end DefUse

end Rejoin
