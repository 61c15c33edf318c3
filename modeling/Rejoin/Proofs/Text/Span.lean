import Rejoin.Text.Span

/-!
# The bytes of a span

A position counts the bytes of the characters before it, so a span cut out of the UTF-8 form of a
text is the UTF-8 form of the characters that stand there.
-/

namespace Rejoin

/-- The bytes of an encoded text are those counted for its characters. -/
theorem size_utf8Encode (text : List Char) : text.utf8Encode.size = byteLength text := by
  induction text with
  | nil => rfl
  | cons c rest ih =>
    rw [List.utf8Encode_cons, ByteArray.size_append, ih, byteLength_cons, List.utf8Encode_singleton,
      List.size_toByteArray, String.length_utf8EncodeChar]

theorem utf8ByteSize_eq (text : String) : text.utf8ByteSize = byteLength text.toList := by
  rw [← size_utf8Encode, String.utf8Encode_toList]
  rfl

/-- The span is a stretch of bytes of the text. -/
def Span.Inside (span : Span) (text : String) : Prop :=
  span.start ≤ span.stop ∧ span.stop ≤ text.utf8ByteSize

/-- The bytes of a text that a span covers. -/
def Span.bytes (span : Span) (text : String) : ByteArray :=
  text.toByteArray.extract span.start span.stop

/-- The span of a part of a text covers the bytes of this part. -/
theorem Span.bytes_eq {text : String} {before part after : List Char}
    (h : text.toList = before ++ (part ++ after)) :
    (⟨byteLength before, byteLength before + byteLength part⟩ : Span).bytes text =
      part.utf8Encode := by
  rw [bytes, ← String.utf8Encode_toList, h, List.utf8Encode_append, List.utf8Encode_append,
    ← size_utf8Encode, ← size_utf8Encode]
  calc
    (before.utf8Encode ++ (part.utf8Encode ++ after.utf8Encode)).extract
          before.utf8Encode.size (before.utf8Encode.size + part.utf8Encode.size) =
        (part.utf8Encode ++ after.utf8Encode).extract 0 part.utf8Encode.size :=
      ByteArray.extract_append_size_add (i := 0)
    _ = part.utf8Encode := ByteArray.extract_append_eq_left rfl

end Rejoin
