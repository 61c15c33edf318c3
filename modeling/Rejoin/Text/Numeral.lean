/-!
# Numerals

Reading unsigned numbers of bounded width in any base up to sixteen, and reading signed decimal
literals of any size. Writing is `Nat.toDigits`, whose digits above nine are lower-case letters.
-/

namespace Rejoin

/-- The value of a digit character: decimal digits and the letters from `a` to `f` in either
case. -/
def digitValue? (c : Char) : Option Nat :=
  if '0' ≤ c ∧ c ≤ '9' then some (c.toNat - '0'.toNat)
  else if 'a' ≤ c ∧ c ≤ 'f' then some (c.toNat - 'a'.toNat + 10)
  else if 'A' ≤ c ∧ c ≤ 'F' then some (c.toNat - 'A'.toNat + 10)
  else none

/-- Append digits, most significant first, to the number `acc`. Fails at a character that is no
digit of the base. -/
def readDigitsFrom? (base : Nat) (acc : Nat) : List Char → Option Nat
  | [] => some acc
  | c :: rest =>
    match digitValue? c with
    | none => none
    | some d => if d < base then readDigitsFrom? base (acc * base + d) rest else none

/-- Read a nonempty row of digits. -/
def readDigits? (base : Nat) (digits : List Char) : Option Nat :=
  if digits.isEmpty then none else readDigitsFrom? base 0 digits

/-- Read an unsigned number below `limit`. One plus sign may stand in front. -/
def readUnsigned? (limit base : Nat) (text : List Char) : Option Nat := do
  let digits := match text with
    | '+' :: rest => rest
    | _ => text
  let n ← readDigits? base digits
  if n < limit then some n else none

/-- Read a 32-bit unsigned decimal number. -/
def readUInt32? (text : List Char) : Option UInt32 :=
  (readUnsigned? UInt32.size 10 text).map UInt32.ofNat

/-- Read a 64-bit unsigned hexadecimal number. -/
def readHexUInt64? (text : List Char) : Option UInt64 :=
  (readUnsigned? UInt64.size 16 text).map UInt64.ofNat

/-- Read a decimal literal with an optional minus sign. -/
def readInt? : List Char → Option Int
  | '-' :: digits => (readDigits? 10 digits).map fun n => -(n : Int)
  | digits => (readDigits? 10 digits).map Int.ofNat

/-- The decimal numeral of a number. -/
def decimal (n : Nat) : String :=
  String.ofList (Nat.toDigits 10 n)

/-- The hexadecimal numeral of a number, in lower case. -/
def hexadecimal (n : Nat) : String :=
  String.ofList (Nat.toDigits 16 n)

/-- The decimal numeral of an integer. -/
def signedDecimal : Int → String
  | .ofNat n => decimal n
  | .negSucc n => "-" ++ decimal (n + 1)

/-- The 64-bit signed integer equal to `n`, if there is one. -/
def int64? (n : Int) : Option Int64 :=
  if Int64.minValue.toInt ≤ n ∧ n ≤ Int64.maxValue.toInt then some (Int64.ofInt n) else none

end Rejoin
