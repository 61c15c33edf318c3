import Rejoin.Text.Blank
import Rejoin.Text.Span

/-!
# Lines

A text is cut into lines after every line feed. A `Line` remembers its number, the byte it starts
at and its characters without the blanks at the end, so that a complaint about a line can point at
exactly the bytes that were read.
-/

namespace Rejoin

/-- Cut a text after every line feed. Joining the pieces gives the text back, and only the last
piece may lack its line feed. -/
def pieces : List Char → List (List Char)
  | [] => []
  | c :: rest =>
    if c = '\n' then [c] :: pieces rest
    else match pieces rest with
      | [] => [[c]]
      | piece :: others => (c :: piece) :: others

/-- One line of a text. -/
structure Line where
  /-- Number of the line, counted from one. -/
  number : Nat
  /-- Byte at which the line starts. -/
  start : Nat
  /-- The characters of the line without the blanks at its end. -/
  text : List Char
deriving DecidableEq, Repr, Inhabited

/-- The bytes a line occupies, blanks at its end apart. -/
def Line.span (line : Line) : Span :=
  ⟨line.start, line.start + byteLength line.text⟩

/-- Number the pieces of a text, the first being line `number` and starting at byte `start`. -/
def linesFrom (number start : Nat) : List (List Char) → List Line
  | [] => []
  | piece :: others =>
    ⟨number, start, trimEnd piece⟩ :: linesFrom (number + 1) (start + byteLength piece) others

/-- The lines of a text. -/
def lines (text : List Char) : List Line :=
  linesFrom 1 0 (pieces text)

end Rejoin
