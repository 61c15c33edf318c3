import Rejoin.Diagnostic
import Rejoin.Report.Record
import Rejoin.Text.Line

/-!
# Reading reports

A report is read line by line. Blanks at the end of a line do not matter, and empty lines are
passed over. An error names the first line that cannot go on.
-/

namespace Rejoin

/-- Why a text is not a report. -/
inductive ReportError where
  /-- A line is neither a header nor a dependent nor an end of record. -/
  | malformed (line : Line)
  /-- A header stands inside a record. -/
  | unterminated (line : Line)
  /-- A dependent or an end of record stands outside any record. -/
  | orphan (line : Line)
  /-- A dependent names another function than the header of its record. -/
  | functionMismatch (expected found : UInt32) (line : Line)
  /-- The text ends, at this byte, inside a record. -/
  | unexpectedEnd (position : Nat)
deriving DecidableEq, Repr, Inhabited

/-- What is shown of a report error. -/
def ReportError.diagnostic : ReportError → Diagnostic
  | malformed line =>
    { message := "malformed report line " ++ decimal line.number
      code := "reconv::report::malformed"
      help := some "expected `* <branch> <function>`, `<instruction> <function>` or `---`"
      labels := [Label.over line.span "here"] }
  | unterminated line =>
    { message := "record opened before the previous one was closed"
      code := "reconv::report::unterminated"
      labels := [Label.over line.span "missing `---` before this line"] }
  | orphan line =>
    { message := "line " ++ decimal line.number ++ " is outside any record"
      code := "reconv::report::orphan"
      labels := [Label.over line.span "no `*` header before this line"] }
  | functionMismatch expected found line =>
    { message := "dependent belongs to function " ++ decimal found.toNat ++ ", branch to " ++
        decimal expected.toNat
      code := "reconv::report::function_mismatch"
      labels := [Label.over line.span "wrong function"] }
  | unexpectedEnd position =>
    { message := "report ends inside a record"
      code := "reconv::report::unexpected_eof"
      labels := [⟨position, 0, "missing `---`"⟩] }

/-- What a line of a report says. -/
inductive ReportLine where
  /-- The end of a record. -/
  | close
  /-- The header of a record. -/
  | header (branch function : UInt32)
  /-- A dependent. -/
  | dependent (number function : UInt32)
deriving DecidableEq, Repr, Inhabited

/-- Read exactly two fields, both unsigned 32-bit decimal numbers. -/
def readPair? (text : List Char) : Option (UInt32 × UInt32) :=
  match fields text with
  | [first, second] => do
    let a ← readUInt32? first
    let b ← readUInt32? second
    pure (a, b)
  | _ => none

/-- Read a line that is not empty and has no blank at its end. -/
def ReportLine.read? (text : List Char) : Option ReportLine :=
  if text = ['-', '-', '-'] then some close
  else match text with
    | '*' :: rest => (readPair? rest).map fun (branch, function) => header branch function
    | _ => (readPair? text).map fun (number, function) => dependent number function

/-- Read the remaining lines of a text of `total` bytes, `current` being the record that is open. -/
def readRecords (total : Nat) :
    Option Record → List Line → Except ReportError (List Record)
  | none, [] => .ok []
  | some _, [] => .error (.unexpectedEnd total)
  | current, line :: rest =>
    if line.text = [] then readRecords total current rest
    else match ReportLine.read? line.text with
      | none => .error (.malformed line)
      | some .close =>
        match current with
        | none => .error (.orphan line)
        | some record => do
          let others ← readRecords total none rest
          pure (record :: others)
      | some (.header branch function) =>
        match current with
        | some _ => .error (.unterminated line)
        | none => readRecords total (some { branch, function, dependents := [] }) rest
      | some (.dependent number function) =>
        match current with
        | none => .error (.orphan line)
        | some record =>
          if record.function = function then
            let record := { record with dependents := record.dependents ++ [number] }
            readRecords total (some record) rest
          else .error (.functionMismatch record.function function line)

/-- Read a report. -/
def readReport (text : String) : Except ReportError (List Record) :=
  readRecords (byteLength text.toList) none (lines text.toList)

end Rejoin
