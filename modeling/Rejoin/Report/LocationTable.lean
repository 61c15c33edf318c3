import Rejoin.Dependence.Numbering

/-!
# Location tables

The location of every substantive instruction of a program, as it has to be carried into the line
table of the compiled program.
-/

namespace Rejoin

/-- The location of one instruction, with the names it belongs to. -/
structure LocationEntry where
  /-- Name of the function. -/
  function : String
  /-- Label of the block that owns the instruction. -/
  block : String
  /-- The location. -/
  location : Location
deriving DecidableEq, Repr, Inhabited

/-- The entries of one function, in layout order. -/
def Func.locations (isa : Isa) (functionId : UInt32) (f : Func) : List LocationEntry :=
  let numbering := Numbering.ofFunc isa functionId f
  numbering.order.filterMap fun id => do
    let location ← numbering.location? id
    pure
      { function := f.name
        block := ((f.owner? id).map Block.label).getD ""
        location }

/-- The entries of a program, function after function. -/
def Program.locations (program : Program) (isa : Isa) : List LocationEntry :=
  program.functions.zipIdx.flatMap fun (f, ordinal) => f.locations isa (functionId ordinal)

/-- The text of an entry: the two names, the number and the identifier, separated by blanks. -/
def LocationEntry.render (entry : LocationEntry) : String :=
  entry.function ++ " " ++ entry.block ++ " " ++ decimal entry.location.index.toNat ++ " " ++
    decimal entry.location.function.toNat ++ "\n"

/-- The text of a location table. -/
def renderLocations (entries : List LocationEntry) : String :=
  String.join (entries.map LocationEntry.render)

end Rejoin
