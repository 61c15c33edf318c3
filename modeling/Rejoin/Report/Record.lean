import Rejoin.Dependence.Branches

/-!
# Report records

A report is a row of records, one for each analysed branch. A record is written as a header with
the number of the branch and the identifier of its function, a line for each dependent, and a line
of three dashes.
-/

namespace Rejoin

/-- The record of an analysed branch. -/
structure Record where
  /-- Number of the branch. -/
  branch : UInt32
  /-- Identifier of the function that owns the branch. -/
  function : UInt32
  /-- Numbers of the dependents. -/
  dependents : List UInt32
deriving DecidableEq, Repr, Inhabited

/-- Two numbers separated by a blank, and a line feed. -/
def pairLine (first second : UInt32) : String :=
  decimal first.toNat ++ " " ++ decimal second.toNat ++ "\n"

/-- The text of a record. -/
def Record.render (record : Record) : String :=
  "* " ++ pairLine record.branch record.function ++
    String.join (record.dependents.map fun n => pairLine n record.function) ++ "---\n"

/-- The text of a report. -/
def renderReport (records : List Record) : String :=
  String.join (records.map Record.render)

/-- The records of the analysed branches of a function, in layout order. -/
def Dependencies.records (deps : Dependencies) : List Record :=
  deps.branches.map fun b =>
    { branch := UInt32.ofNat b.branch
      function := deps.functionId
      dependents := b.dependents.map UInt32.ofNat }

/-- Write the records of a function at the end of a report. -/
def writeFunction (report : String) (deps : Dependencies) : String :=
  report ++ renderReport deps.records

end Rejoin
