import Rejoin.Isa
import Rejoin.Machine.Func

/-!
# Instruction numbers

The substantive instructions of a function are numbered from zero in layout order; annotations
get no number. The number of an instruction and the identifier of its function form its location,
by which it can be found again in the compiled program.
-/

namespace Rejoin

/-- Identifiers of functions start here; smaller numbers are left to ordinary columns. -/
def functionIdBase : UInt32 := 10000

/-- The identifier of the function with a given place in its program, in 32-bit arithmetic. -/
def functionId (ordinal : Nat) : UInt32 :=
  functionIdBase + UInt32.ofNat ordinal

/-- Where an instruction is found: its number and the identifier of its function. -/
structure Location where
  /-- Number of the instruction. -/
  index : UInt32
  /-- Identifier of the function. -/
  function : UInt32
deriving DecidableEq, Repr, Inhabited

/-- The numbers of the substantive instructions of a function, kept in both directions. -/
structure Numbering where
  /-- Identifier of the function. -/
  functionId : UInt32
  /-- The number of each numbered instruction, the latest entry first. -/
  numbers : List (InstId × Nat) := []
  /-- The numbered instructions; the place of an instruction is its number. -/
  order : List InstId := []
deriving DecidableEq, Repr, Inhabited

namespace Numbering

/-- Give an instruction the next number. -/
def add (numbering : Numbering) (id : InstId) : Numbering :=
  { numbering with
    numbers := (id, numbering.order.length) :: numbering.numbers
    order := numbering.order ++ [id] }

/-- Number an instruction if it is substantive for an instruction set. -/
def visit (isa : Isa) (numbering : Numbering) (entry : InstId × Inst BlockId) : Numbering :=
  if isa.isSubstantive entry.2 then numbering.add entry.1 else numbering

/-- Number the instructions of a function that are substantive for an instruction set. -/
def ofFunc (isa : Isa) (functionId : UInt32) (f : Func) : Numbering :=
  f.insts.foldl (visit isa) { functionId }

/-- How many instructions are numbered. -/
def size (numbering : Numbering) : Nat :=
  numbering.order.length

/-- The number of an instruction. -/
def number? (numbering : Numbering) (id : InstId) : Option Nat :=
  numbering.numbers.lookup id

/-- The instruction with a number. -/
def inst? (numbering : Numbering) (number : Nat) : Option InstId :=
  numbering.order[number]?

/-- The location of an instruction. -/
def location? (numbering : Numbering) (id : InstId) : Option Location :=
  (numbering.number? id).map fun number => ⟨UInt32.ofNat number, numbering.functionId⟩

/-- Every number with its instruction, ascending. -/
def entries (numbering : Numbering) : List (Nat × InstId) :=
  numbering.order.zipIdx.map fun (id, number) => (number, id)

/-- The numbers of those instructions in `ids` that have one, ascending and each once. -/
def collect (numbering : Numbering) (ids : List InstId) : List Nat :=
  (numbering.entries.filter fun entry => ids.contains entry.2).map (·.1)

end Numbering

end Rejoin
