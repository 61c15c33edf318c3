/-!
# Blank characters

The Unicode property `White_Space`, and the two operations on text that depend on it: dropping
blanks at the end, and splitting into fields.
-/

namespace Rejoin

/-- Whether a character has the Unicode property `White_Space`. -/
def isBlank (c : Char) : Bool :=
  let n := c.toNat
  (0x09 ≤ n && n ≤ 0x0D) || n == 0x20 || n == 0x85 || n == 0xA0 || n == 0x1680 ||
    (0x2000 ≤ n && n ≤ 0x200A) || n == 0x2028 || n == 0x2029 || n == 0x202F || n == 0x205F ||
    n == 0x3000

/-- A text without the blanks at its end. -/
def trimEnd (text : List Char) : List Char :=
  (text.reverse.dropWhile isBlank).reverse

/-- The maximal runs of characters that are not blank, in order. -/
def fields : List Char → List (List Char)
  | [] => []
  | c :: rest =>
    if isBlank c then fields rest
    else match rest with
      | [] => [[c]]
      | d :: _ =>
        if isBlank d then [c] :: fields rest
        else match fields rest with
          | [] => [[c]]
          | word :: words => (c :: word) :: words

end Rejoin
