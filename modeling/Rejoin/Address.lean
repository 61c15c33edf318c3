import Rejoin.Report.Record
import Rejoin.Diagnostic
import Rejoin.Text.Line

/-!
# Addresses

The line table of a compiled program, dumped as text, has one row for each address: the address in
hexadecimal, a line and a column. Locations of instructions appear in it as lines and columns, the
line being the number of the instruction and the column the identifier of its function. Rows with a
smaller column come from ordinary debug information and are passed over, and so is every line that
does not start with `0x`.

* `AddressMap.read` reads a dump.
* `resolve` replaces the locations in report records by addresses.
-/

namespace Rejoin

/-- Why a dump cannot be read: a row that is not well formed. -/
inductive DumpError where
  /-- The row on this line is not an address, a line and a column. -/
  | malformed (line : Line)
deriving DecidableEq, Repr, Inhabited

/-- What is shown of a dump error. -/
def DumpError.diagnostic : DumpError → Diagnostic
  | malformed line =>
    { message := "malformed address row on line " ++ decimal line.number
      code := "reconv::trace::malformed"
      help := some "expected `0x<address> <line> <column> ...`"
      labels := [Label.over line.span "here"] }

/-- The addresses of instructions. -/
structure AddressMap where
  /-- The rows that give locations, the latest first. -/
  rows : List (Location × UInt64)
deriving DecidableEq, Repr, Inhabited

/-- Read the row after its `0x`: an address, a line and a column, and whatever follows. -/
def readRow? (text : List Char) : Option (UInt64 × Location) :=
  match fields text with
  | address :: line :: column :: _ => do
    let pc ← readHexUInt64? address
    let index ← readUInt32? line
    let function ← readUInt32? column
    pure (pc, ⟨index, function⟩)
  | _ => none

namespace AddressMap

/-- Read the remaining lines of a dump, `rows` being those read so far. -/
def readLines (rows : List (Location × UInt64)) : List Line → Except DumpError AddressMap
  | [] => .ok ⟨rows⟩
  | line :: rest =>
    match line.text with
    | '0' :: 'x' :: row =>
      match readRow? row with
      | none => .error (.malformed line)
      | some (pc, location) =>
        if functionIdBase ≤ location.function then readLines ((location, pc) :: rows) rest
        else readLines rows rest
    | _ => readLines rows rest

/-- Read a dump. -/
def read (text : String) : Except DumpError AddressMap :=
  readLines [] (lines text.toList)

/-- The address of a location: that of the last row that gives it. -/
def get? (map : AddressMap) (location : Location) : Option UInt64 :=
  map.rows.lookup location

/-- How many locations have an address. -/
def size (map : AddressMap) : Nat :=
  (map.rows.map (·.1)).eraseDups.length

end AddressMap

/-- A record whose locations have been replaced by addresses. -/
structure ResolvedBranch where
  /-- Address of the branch. -/
  pc : UInt64
  /-- Addresses of the dependents that have one. -/
  dependents : List UInt64
deriving DecidableEq, Repr, Inhabited

/-- The text of a resolved record: addresses in hexadecimal, one a line, and a line of three
dashes. -/
def ResolvedBranch.render (branch : ResolvedBranch) : String :=
  "* " ++ hexadecimal branch.pc.toNat ++ "\n" ++
    String.join (branch.dependents.map fun pc => hexadecimal pc.toNat ++ "\n") ++ "---\n"

/-- Replace the locations of a record by addresses. A branch without an address is dropped, and so
is a dependent without one. -/
def Record.resolve? (map : AddressMap) (record : Record) : Option ResolvedBranch := do
  let pc ← map.get? ⟨record.branch, record.function⟩
  pure
    { pc
      dependents := record.dependents.filterMap fun n => map.get? ⟨n, record.function⟩ }

/-- Replace the locations of records by addresses. -/
def resolve (map : AddressMap) (records : List Record) : List ResolvedBranch :=
  records.filterMap (Record.resolve? map)

/-- The text of resolved records. -/
def renderResolved (branches : List ResolvedBranch) : String :=
  String.join (branches.map ResolvedBranch.render)

end Rejoin
