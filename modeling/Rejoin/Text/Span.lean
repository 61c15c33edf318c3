/-!
# Byte spans

Positions in a text are counted in bytes of its UTF-8 form. A `Span` is a stretch of bytes, and
`Spanned` attaches one to a value that was read from a text.
-/

namespace Rejoin

/-- The bytes from `start` up to, and not including, `stop`. -/
structure Span where
  /-- Position of the first byte. -/
  start : Nat
  /-- Position after the last byte. -/
  stop : Nat
deriving DecidableEq, Repr, Inhabited

/-- The number of bytes in a span; a span that stops before it starts has none. -/
def Span.length (span : Span) : Nat :=
  span.stop - span.start

/-- A value together with the bytes it was read from. -/
structure Spanned (α : Type) where
  /-- The value. -/
  val : α
  /-- The bytes it was read from. -/
  span : Span
deriving DecidableEq, Repr, Inhabited

/-- The number of bytes a text occupies in UTF-8. -/
def byteLength (text : List Char) : Nat :=
  text.foldr (fun c n => c.utf8Size + n) 0

/-- Whether a byte position is not inside a character of a text. Positions after the text are
not. -/
def isBoundary : List Char → Nat → Bool
  | _, 0 => true
  | [], _ + 1 => true
  | c :: rest, position =>
    if position < c.utf8Size then false else isBoundary rest (position - c.utf8Size)

@[simp]
theorem byteLength_nil : byteLength [] = 0 := rfl

@[simp]
theorem byteLength_cons (c : Char) (text : List Char) :
    byteLength (c :: text) = c.utf8Size + byteLength text := by
  simp [byteLength]

@[simp]
theorem byteLength_append (left right : List Char) :
    byteLength (left ++ right) = byteLength left + byteLength right := by
  induction left with
  | nil => simp
  | cons c left ih => simp [ih, Nat.add_assoc]

end Rejoin
