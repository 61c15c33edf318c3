import Rejoin.Isa

/-!
# Command line arguments

The first argument chooses what to do, the next one or two name inputs, and flags follow. Inputs are
opened as they are read, so an input that cannot be opened is reported before a wrong flag.
-/

namespace Rejoin.Command

/-- What the command does. -/
inductive Mode where
  /-- Analyse a listing. -/
  | listing
  /-- Analyse a Koopa text. -/
  | koopa
  /-- Print the location table of a listing. -/
  | locations
  /-- Map a report to addresses. -/
  | resolve
deriving DecidableEq, Repr, Inhabited

/-- Why a path cannot be opened. -/
inductive OpenError where
  /-- Nothing is there. -/
  | notFound
  /-- It is a directory. -/
  | isDirectory
  /-- It is sought below something that is not a directory. -/
  | notDirectory
  /-- A name in it, or all of it, is too long. -/
  | nameTooLong
  /-- Any other reason. -/
  | other (reason : String)
deriving DecidableEq, Repr, Inhabited

/-- The text for a path that cannot be opened. -/
def OpenError.message : OpenError → String
  | notFound => "No such file or directory (os error 2)"
  | isDirectory => "Is a directory (os error 21)"
  | notDirectory => "Not a directory (os error 20)"
  | nameTooLong => "File name too long (os error 36)"
  | other reason => reason

/-- An input: the standard input, or the content of a file. -/
inductive Source where
  /-- The standard input. -/
  | stdin
  /-- A file. -/
  | file (content : ByteArray)
deriving Inhabited

/-- How the command is to be run. -/
structure Arguments where
  /-- What to do. -/
  mode : Mode
  /-- The input. -/
  input : Source
  /-- The address dump, in mode `resolve`. -/
  dump : Option Source := none
  /-- Path of the output; a dash is the standard output. -/
  output : String := "-"
  /-- Whether to write accounts to standard error. -/
  verbose : Bool := false
  /-- The instruction set. -/
  isa : Isa := .x86
deriving Inhabited

/-- Why the command is not run. -/
inductive Refusal where
  /-- Help was asked for. -/
  | help
  /-- An argument is missing. -/
  | missing (what : String)
  /-- The mode does not exist. -/
  | invalidMode (mode : String)
  /-- The flag does not exist. -/
  | unknownFlag (flag : String)
  /-- The instruction set does not exist. -/
  | unknownIsa (name : String)
  /-- An input cannot be opened. -/
  | cannotOpen (error : OpenError)
deriving DecidableEq, Repr, Inhabited

/-- The complaint about wrong arguments. -/
def Refusal.message : Refusal → String
  | help => ""
  | missing what => "missing argument `" ++ what ++ "`"
  | invalidMode mode => "invalid mode: " ++ mode
  | unknownFlag flag => "unknown flag: " ++ flag
  | unknownIsa name => Isa.unknownMessage name
  | cannotOpen error => error.message

/-- The mode with a name. -/
def readMode (name : String) : Except Refusal Mode :=
  if name = "-listing" then .ok .listing
  else if name = "-koopa" then .ok .koopa
  else if name = "-locations" then .ok .locations
  else if name = "-resolve" then .ok .resolve
  else if name = "-help" then .error .help
  else .error (.invalidMode name)

/-- Open the input that the first argument names. A dash is the standard input. -/
def readSource (look : String → Except OpenError ByteArray) (what : String) :
    List String → Except Refusal (Source × List String)
  | [] => .error (.missing what)
  | path :: rest =>
    if path = "-" then .ok (.stdin, rest)
    else match look path with
      | .ok content => .ok (.file content, rest)
      | .error error => .error (.cannotOpen error)

/-- Read the flags. A later flag replaces an earlier one. -/
def readFlags (arguments : Arguments) : List String → Except Refusal Arguments
  | [] => .ok arguments
  | flag :: rest =>
    if flag = "-v" then readFlags { arguments with verbose := true } rest
    else if flag = "-o" then
      match rest with
      | [] => .error (.missing "output")
      | output :: rest => readFlags { arguments with output } rest
    else if flag = "--isa" then
      match rest with
      | [] => .error (.missing "isa")
      | name :: rest =>
        match Isa.ofName? name with
        | some isa => readFlags { arguments with isa } rest
        | none => .error (.unknownIsa name)
    else .error (.unknownFlag flag)

/-- Read the arguments, opening inputs with `look`. -/
def readArguments (look : String → Except OpenError ByteArray) :
    List String → Except Refusal Arguments
  | [] => .error (.missing "mode")
  | name :: rest => do
    let mode ← readMode name
    let (input, rest) ← readSource look "input" rest
    match mode with
    | .resolve => do
      let (dump, rest) ← readSource look "address-dump" rest
      readFlags { mode, input, dump := some dump } rest
    | .listing | .koopa | .locations => readFlags { mode, input } rest

end Rejoin.Command
