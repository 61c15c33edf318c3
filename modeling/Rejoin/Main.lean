import Rejoin.Command.Run

/-!
# The command

Reads what a run may need, lets `Command.run` decide, and carries out what it decided.
-/

namespace Rejoin.Command

/-- What is found at a path. -/
def lookAt (path : String) : IO (Except OpenError ByteArray) := do
  try
    let content ← IO.FS.readBinFile path
    pure (.ok content)
  catch
    | .noFileOrDirectory .. => pure (.error .notFound)
    | .invalidArgument _ _ "name too long" => pure (.error .nameTooLong)
    | .inappropriateType _ code _ =>
      pure (.error (if code = 21 then .isDirectory else .notDirectory))
    | error => pure (.error (.other (toString error)))

/-- Everything a run with these arguments may read. -/
def gather (args : List String) : IO World := do
  let paths := (args.drop 1).take (if args.head? = some "-resolve" then 2 else 1)
  let found ← paths.mapM fun path => do
    let content ← lookAt path
    pure (path, content)
  let stdin ← if paths.contains "-" then (← IO.getStdin).readBinToEnd else pure ByteArray.empty
  pure { stdin, look := fun path => (found.lookup path).getD (.error .notFound) }

/-- Write an output, and say whether that was possible. -/
def deliver (output : Output) : IO Bool := do
  if output.path = "-" then
    IO.print output.text
    pure true
  else
    try
      let mode := if output.append then IO.FS.Mode.append else IO.FS.Mode.write
      let handle ← IO.FS.Handle.mk output.path mode
      handle.putStr output.text
      handle.flush
      pure true
    catch error =>
      IO.eprintln ("Error: " ++ toString error)
      pure false

/-- Carry out the end of a run, and give the exit code. -/
def conclude : Outcome → IO UInt32
  | .refused .help => do
    IO.print helpText
    pure 0
  | .refused refusal => do
    IO.eprint refusal.text
    pure 1
  | .failed message => do
    IO.eprintln ("Error: " ++ message)
    pure 1
  | .aborted => pure 101
  | .finished output account failures => do
    if ← deliver output then
      IO.eprint account
      if failures = 0 then pure 0
      else
        IO.eprintln ("Error: analysis failed for " ++ decimal failures ++ " function(s)")
        pure 1
    else pure 1

end Rejoin.Command

/-- Run the command. -/
def main (args : List String) : IO UInt32 := do
  let world ← Rejoin.Command.gather args
  Rejoin.Command.conclude (Rejoin.Command.run world args)
