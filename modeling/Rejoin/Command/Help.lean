import Rejoin.Command.Arguments

/-!
# Help
-/

namespace Rejoin.Command

/-- A text in bold type on a terminal. -/
def bold (text : String) : String :=
  "\x1b[1m" ++ text ++ "\x1b[0m"

/-- A text in bold type and underlined on a terminal. -/
def heading (text : String) : String :=
  "\x1b[4m" ++ bold text ++ "\x1b[0m"

/-- The help text. -/
def helpText : String :=
  heading "Usage" ++ ": " ++ bold "reconvergence" ++
    " <mode> <input> [-o output] [-v] [--isa isa]\n" ++
  "       " ++ bold "reconvergence" ++ " -resolve <report> <address-dump> [-o output]\n\n" ++
  heading "Arguments" ++ ":\n" ++
  "    " ++ bold "mode" ++ "        Mode of the analyser, can be one of:\n" ++
  "                    " ++ bold "-listing" ++ "    Analyse a machine listing\n" ++
  "                    " ++ bold "-koopa" ++ "      Analyse Koopa IR\n" ++
  "                    " ++ bold "-locations" ++
    "  Print the location record of every instruction\n" ++
  "                    " ++ bold "-resolve" ++ "    Map a report to program counters\n" ++
  "                    " ++ bold "-help" ++ "       Print this help message\n" ++
  "    " ++ bold "input" ++ "       Input file, use - for stdin\n" ++
  "    " ++ bold "-o output" ++
    "   Output file, use - or omit for stdout. Reports are appended\n" ++
  "    " ++ bold "-v" ++ "          Print numbering and dependents to stderr\n" ++
  "    " ++ bold "--isa isa" ++ "   Instruction set, " ++ bold "x86" ++ " (default) or " ++
    bold "generic" ++ "\n"

/-- What is printed when the arguments are wrong: the complaint and the help text. -/
def Refusal.text (refusal : Refusal) : String :=
  heading "Error" ++ ": " ++ refusal.message ++ "\n" ++ helpText

end Rejoin.Command
