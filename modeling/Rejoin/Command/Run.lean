import Rejoin.Address
import Rejoin.Command.Help
import Rejoin.Koopa.Lowering
import Rejoin.Listing.Lowering
import Rejoin.Report.Account
import Rejoin.Report.LocationTable
import Rejoin.Report.Reader
import Rejoin.Session

/-!
# Running the command

`run` decides everything about a run of the command, from the arguments, the standard input and what
can be read at paths. What is left to do afterwards is to print, to write at most one file, and to
exit.
-/

namespace Rejoin.Command

/-- What a run may read. -/
structure World where
  /-- The standard input. -/
  stdin : ByteArray
  /-- What is found at a path. -/
  look : String → Except OpenError ByteArray

/-- A text to write. -/
structure Output where
  /-- Where to; a dash is the standard output. -/
  path : String
  /-- Whether to keep what the file holds already. -/
  append : Bool
  /-- The text. -/
  text : String
deriving DecidableEq, Repr, Inhabited

/-- How a run ends. -/
inductive Outcome where
  /-- The arguments were not accepted, or help was asked for. -/
  | refused (refusal : Refusal)
  /-- An input cannot be used. -/
  | failed (message : String)
  /-- A Koopa text was given up, or a diagnostic cannot be drawn. -/
  | aborted
  /-- There is an output, an account for standard error, and a number of functions whose analysis
  failed. -/
  | finished (output : Output) (account : String) (failures : Nat)
deriving DecidableEq, Repr, Inhabited

/-- The texts of sources, in order. The standard input can be read once; after that it is empty.
Fails at a content that is not UTF-8. -/
def readSources (stdin : ByteArray) : List Source → Option (List String)
  | [] => some []
  | .file content :: rest => do
    let text ← String.fromUTF8? content
    let others ← readSources stdin rest
    pure (text :: others)
  | .stdin :: rest => do
    let text ← String.fromUTF8? stdin
    let others ← readSources ByteArray.empty rest
    pure (text :: others)

/-- What the analysis finds in one function, and its account. -/
def functionAccount (ordinal : Nat) : Query (Dependencies × String) := do
  let f ← Session.function ordinal
  let deps ← Session.dependencies ordinal
  let numbering ← Session.numbering ordinal
  pure (deps, deps.account f numbering)

/-- What has been written while functions are analysed one after the other. -/
structure Tally where
  /-- The session. -/
  session : Session
  /-- The accounts. -/
  account : String := ""
  /-- The reports. -/
  report : String := ""
  /-- The number of functions whose analysis failed. -/
  failures : Nat := 0

/-- Analyse one more function. One that fails is counted, and the others are still analysed. -/
def Tally.add (tally : Tally) (ordinal : Nat) : Tally :=
  match tally.session.ask (functionAccount ordinal) with
  | (.ok (deps, account), session) =>
    { tally with
      session
      account := tally.account ++ account
      report := writeFunction tally.report deps }
  | (.error _, session) => { tally with session, failures := tally.failures + 1 }

/-- Analyse a program and report. -/
def report (arguments : Arguments) (program : Program) : Outcome :=
  let start : Tally := { session := { program, isa := arguments.isa } }
  let tally := (List.range program.functions.length).foldl Tally.add start
  .finished { path := arguments.output, append := true, text := tally.report }
    (if arguments.verbose then tally.account else "") tally.failures

/-- End a run with a diagnostic about a text. -/
def Outcome.ofDiagnostic (source : String) (diagnostic : Diagnostic) : Outcome :=
  if diagnostic.drawable source then .failed diagnostic.message else .aborted

/-- Map a report to addresses. -/
def resolveReport (arguments : Arguments) (report dump : String) : Outcome :=
  match readReport report with
  | .error error => .ofDiagnostic report error.diagnostic
  | .ok records =>
    match AddressMap.read dump with
    | .error error => .ofDiagnostic dump error.diagnostic
    | .ok map =>
      let text := renderResolved (resolve map records)
      .finished { path := arguments.output, append := false, text } "" 0

/-- Run the command on accepted arguments. -/
def runWith (stdin : ByteArray) (arguments : Arguments) : Outcome :=
  match readSources stdin (arguments.input :: arguments.dump.toList) with
  | none => .failed "stream did not contain valid UTF-8"
  | some texts =>
    let input := texts.head?.getD ""
    match arguments.mode with
    | .resolve => resolveReport arguments input (texts[1]?.getD "")
    | .koopa =>
      match Koopa.parse input with
      | .error .aborted => .aborted
      | .error .rejected => .ofDiagnostic input Koopa.Error.rejected.diagnostic
      | .ok program => report arguments program
    | .listing =>
      match Listing.parse input with
      | .error error => .ofDiagnostic input error.diagnostic
      | .ok program => report arguments program
    | .locations =>
      match Listing.parse input with
      | .error error => .ofDiagnostic input error.diagnostic
      | .ok program =>
        let text := renderLocations (program.locations arguments.isa)
        .finished { path := arguments.output, append := false, text } "" 0

/-- Run the command. -/
def run (world : World) (args : List String) : Outcome :=
  match readArguments world.look args with
  | .error refusal => .refused refusal
  | .ok arguments => runWith world.stdin arguments

end Rejoin.Command
