import Rejoin.Text.Span

/-!
# Diagnostics

What is shown of an error: a message, a stable code, perhaps a hint, and labelled places in the
text it is about.
-/

namespace Rejoin

/-- A place in a text with a remark about it. -/
structure Label where
  /-- First byte of the place. -/
  offset : Nat
  /-- Number of bytes of the place. -/
  length : Nat
  /-- The remark. -/
  text : String
deriving DecidableEq, Repr, Inhabited

/-- The label that covers a span. -/
def Label.over (span : Span) (text : String) : Label :=
  ⟨span.start, span.length, text⟩

/-- What is shown of an error. -/
structure Diagnostic where
  /-- The message. -/
  message : String
  /-- A code that names the kind of error. -/
  code : String
  /-- A hint on what to do about it. -/
  help : Option String := none
  /-- The places the error is about. -/
  labels : List Label := []
deriving DecidableEq, Repr, Inhabited

/-- Whether a label covers whole characters of a text. -/
def Label.fits (label : Label) (source : List Char) : Bool :=
  isBoundary source label.offset && isBoundary source (label.offset + label.length)

/-- Whether the places can be drawn below the lines of a text, which takes labels that cover whole
characters. -/
def Diagnostic.drawable (diagnostic : Diagnostic) (source : String) : Bool :=
  diagnostic.labels.all fun label => label.fits source.toList

end Rejoin
