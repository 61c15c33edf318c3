import Mathlib.Data.List.Forall2
import Mathlib.Data.Nat.Digits.Defs
import Rejoin.Text.Numeral

/-!
# Numerals and their values

A row of digits spells a number, `Spells`, if the values of the digits are its digits in the sense
of `Nat.ofDigits`. Reading a row of digits gives the number it spells, `readDigits?_eq_some_iff`,
and writing a number gives a row that spells it, `spells_toDigits`. So a written number is read
back, with or without a bound on its size.
-/

namespace Rejoin

variable {base acc n : Nat} {digits : List Char}

/-- The characters are digits of the base, and these are their values. -/
def AreDigits (base : Nat) (digits : List Char) (values : List Nat) : Prop :=
  List.Forall₂ (fun c v => digitValue? c = some v ∧ v < base) digits values

/-- A nonempty row of digits, the most significant first, spells a number. -/
def Spells (base : Nat) (digits : List Char) (n : Nat) : Prop :=
  digits ≠ [] ∧ ∃ values, AreDigits base digits values ∧ Nat.ofDigits base values.reverse = n

/-- Reading goes digit by digit on top of what has been read. The digits so far are the most
significant one of the rest. -/
theorem readDigitsFrom?_eq_some_iff :
    readDigitsFrom? base acc digits = some n ↔ ∃ values, AreDigits base digits values ∧
      Nat.ofDigits base (values.reverse ++ [acc]) = n := by
  induction digits generalizing acc with
  | nil =>
    simp only [readDigitsFrom?, Option.some.injEq, AreDigits, List.forall₂_nil_left_iff]
    constructor
    · rintro rfl
      exact ⟨[], rfl, by simp⟩
    · rintro ⟨_, rfl, h⟩
      simpa using h
  | cons c rest ih =>
    -- the first digit joins the number before it, which then counts for one place more
    have hjoin : ∀ (d : Nat) (values : List Nat),
        Nat.ofDigits base (values.reverse ++ [acc * base + d]) =
          Nat.ofDigits base ((d :: values).reverse ++ [acc]) := by
      intro d values
      simp only [List.reverse_cons, List.append_assoc, List.cons_append, List.nil_append,
        Nat.ofDigits_append, Nat.ofDigits_cons, Nat.ofDigits_nil]
      ring
    rw [readDigitsFrom?]
    simp only [AreDigits, List.forall₂_cons_left_iff]
    cases hd : digitValue? c with
    | none => simp
    | some d =>
      by_cases hlt : d < base
      · simp only [hlt, if_true, ih]
        constructor
        · rintro ⟨values, hvalues, h⟩
          exact ⟨d :: values, ⟨d, values, ⟨rfl, hlt⟩, hvalues, rfl⟩, by rw [← hjoin, h]⟩
        · rintro ⟨_, ⟨d', values, ⟨heq, -⟩, hvalues, rfl⟩, h⟩
          obtain rfl := Option.some.inj heq
          exact ⟨values, hvalues, by rw [hjoin, h]⟩
      · simp only [hlt, if_false, reduceCtorEq, false_iff]
        rintro ⟨_, ⟨d', values, ⟨heq, hd'⟩, -⟩, -⟩
        obtain rfl := Option.some.inj heq
        exact hlt hd'

/-- Reading a row of digits gives the number that it spells. -/
theorem readDigits?_eq_some_iff : readDigits? base digits = some n ↔ Spells base digits n := by
  unfold readDigits? Spells
  cases digits with
  | nil => simp
  | cons c rest =>
    simp only [List.isEmpty_cons, Bool.false_eq_true, if_false, readDigitsFrom?_eq_some_iff, ne_eq,
      reduceCtorEq, not_false_eq_true, true_and]
    simp [Nat.ofDigits_append]

/-- A text spells one number. -/
theorem Spells.unique {m : Nat} (hn : Spells base digits n) (hm : Spells base digits m) :
    n = m := by
  rw [← readDigits?_eq_some_iff] at hn hm
  exact Option.some.inj (hn.symm.trans hm)

private theorem digitValue?_digitChar : ∀ d < 16, digitValue? (Nat.digitChar d) = some d := by
  decide

/-- A written number is spelled by its digits. -/
theorem spells_toDigits (hbase : 1 < base) (hmax : base ≤ 16) (n : Nat) :
    Spells base (Nat.toDigits base n) n := by
  have hvalue : ∀ d < base, AreDigits base [Nat.digitChar d] [d] := fun d hd =>
    .cons ⟨digitValue?_digitChar d (by omega), hd⟩ .nil
  refine ⟨Nat.toDigits_ne_nil, ?_⟩
  -- induction on the number: the last digit is its remainder, the others spell the quotient
  induction n using Nat.strong_induction_on with
  | _ n ih =>
    rw [Nat.toDigits_eq_if hbase]
    by_cases hlt : n < base
    · rw [if_pos hlt]
      exact ⟨[n], hvalue n hlt, by simp⟩
    · rw [if_neg hlt]
      obtain ⟨values, hvalues, h⟩ := ih (n / base) (Nat.div_lt_self (by omega) hbase)
      have hlast := hvalue (n % base) (Nat.mod_lt n (by omega))
      refine ⟨values ++ [n % base], List.rel_append hvalues hlast, ?_⟩
      rw [List.reverse_append, List.reverse_singleton, List.singleton_append, Nat.ofDigits_cons, h]
      exact Nat.mod_add_div n base

/-- A printed number is spelled by its text. -/
theorem spells_decimal (n : Nat) : Spells 10 (decimal n).toList n := by
  rw [decimal, String.toList_ofList]
  exact spells_toDigits (by decide) (by decide) n

/-! ## Digit characters -/

/-- The decimal digits have values below ten. -/
private theorem digitValue?_of_isDigit {c : Char} (h : c.isDigit = true) :
    ∃ v, digitValue? c = some v ∧ v < 10 := by
  have hle : '0' ≤ c ∧ c ≤ '9' := by simpa [Char.isDigit, Char.le_def] using h
  refine ⟨c.toNat - '0'.toNat, if_pos hle, ?_⟩
  have hnine : c.toNat ≤ 57 := UInt32.le_iff_toNat_le.mp (Char.le_def.mp hle.2)
  change c.toNat - 48 < 10
  omega

/-- Only the decimal digits have values below ten. -/
private theorem isDigit_of_digitValue? {c : Char} {v : Nat} (h : digitValue? c = some v)
    (hv : v < 10) : c.isDigit = true := by
  unfold digitValue? at h
  split at h
  next hle => simpa [Char.isDigit, Char.le_def] using hle
  next =>
    -- the letters stand for ten and more
    split at h
    · have := Option.some.inj h
      omega
    · split at h
      · have := Option.some.inj h
        omega
      · cases h

/-- A nonempty row of decimal digits spells some number. -/
theorem exists_spells_of_isDigit (hne : digits ≠ []) (h : ∀ c ∈ digits, c.isDigit = true) :
    ∃ n, Spells 10 digits n := by
  have hvalues : ∃ values, AreDigits 10 digits values := by
    clear hne
    induction digits with
    | nil => exact ⟨[], .nil⟩
    | cons c rest ih =>
      obtain ⟨hc, hrest⟩ := List.forall_mem_cons.mp h
      obtain ⟨v, hv⟩ := digitValue?_of_isDigit hc
      obtain ⟨values, hvalues⟩ := ih hrest
      exact ⟨v :: values, .cons hv hvalues⟩
  obtain ⟨values, hvalues⟩ := hvalues
  exact ⟨_, hne, values, hvalues, rfl⟩

/-- Every character of a spelled number is a digit. -/
theorem AreDigits.exists_value {values : List Nat} (h : AreDigits base digits values) :
    ∀ c ∈ digits, ∃ v, digitValue? c = some v ∧ v < base := by
  induction h with
  | nil => simp
  | @cons c v _ _ hfirst _ ih => exact List.forall_mem_cons.mpr ⟨⟨v, hfirst⟩, ih⟩

/-- A decimal number is spelled with decimal digits. -/
theorem Spells.isDigit (h : Spells 10 digits n) : ∀ c ∈ digits, c.isDigit = true := by
  obtain ⟨-, values, hvalues, -⟩ := h
  intro c hc
  obtain ⟨v, hv, hlt⟩ := hvalues.exists_value c hc
  exact isDigit_of_digitValue? hv hlt

/-- What is no digit does not occur in a spelled number. -/
theorem Spells.not_mem {c : Char} (h : Spells base digits n) (hc : digitValue? c = none) :
    c ∉ digits := by
  obtain ⟨-, values, hvalues, -⟩ := h
  intro hmem
  obtain ⟨v, hv, -⟩ := hvalues.exists_value c hmem
  rw [hc] at hv
  cases hv

/-! ## Numbers of bounded width, and signed numbers -/

/-- A row of digits that spells a number below the limit is read as this number. -/
theorem readUnsigned?_of_spells {limit : Nat} (h : Spells base digits n) (hlt : n < limit) :
    readUnsigned? limit base digits = some n := by
  have hread := readDigits?_eq_some_iff.mpr h
  unfold readUnsigned?
  -- a sign is no digit, so none is taken off
  cases digits with
  | nil => exact absurd rfl h.1
  | cons c rest =>
    have hsign : c ≠ '+' := by
      rintro rfl
      exact h.not_mem (by decide) List.mem_cons_self
    simp [hsign, hread, hlt]

/-- The text of an unsigned number: a row of digits, with or without a plus sign. -/
def SpellsUnsigned (base : Nat) (text : List Char) (n : Nat) : Prop :=
  Spells base text n ∨ ∃ digits, text = '+' :: digits ∧ Spells base digits n

/-- A number below the limit is read, with a plus sign or without. -/
theorem SpellsUnsigned.readUnsigned? {limit : Nat} {text : List Char}
    (h : SpellsUnsigned base text n) (hlt : n < limit) :
    readUnsigned? limit base text = some n := by
  rcases h with h | ⟨digits, rfl, h⟩
  · exact readUnsigned?_of_spells h hlt
  · simp [Rejoin.readUnsigned?, readDigits?_eq_some_iff.mpr h, hlt]

theorem SpellsUnsigned.readUInt32? {text : List Char} {m : UInt32}
    (h : SpellsUnsigned 10 text m.toNat) : readUInt32? text = some m := by
  rw [Rejoin.readUInt32?, h.readUnsigned? m.toNat_lt, Option.map_some, UInt32.ofNat_toNat]

theorem SpellsUnsigned.readHexUInt64? {text : List Char} {m : UInt64}
    (h : SpellsUnsigned 16 text m.toNat) : readHexUInt64? text = some m := by
  rw [Rejoin.readHexUInt64?, h.readUnsigned? m.toNat_lt, Option.map_some, UInt64.ofNat_toNat]

/-- Reading an unsigned number succeeds exactly on the texts of numbers below the limit. -/
theorem readUnsigned?_eq_some_iff {limit : Nat} {text : List Char} :
    readUnsigned? limit base text = some n ↔ SpellsUnsigned base text n ∧ n < limit := by
  refine ⟨fun h => ?_, fun ⟨h, hlt⟩ => h.readUnsigned? hlt⟩
  unfold readUnsigned? at h
  obtain ⟨m, hm, hlimit⟩ := Option.bind_eq_some_iff.mp h
  rw [Option.ite_none_right_eq_some, Option.some.injEq] at hlimit
  obtain ⟨hlt, rfl⟩ := hlimit
  refine ⟨?_, hlt⟩
  split at hm
  next digits => exact .inr ⟨digits, rfl, readDigits?_eq_some_iff.mp hm⟩
  next => exact .inl (readDigits?_eq_some_iff.mp hm)

/-- Exactly the texts that spell a 32-bit number are read as it. -/
theorem readUInt32?_eq_some_iff {text : List Char} {m : UInt32} :
    readUInt32? text = some m ↔ SpellsUnsigned 10 text m.toNat := by
  refine ⟨fun h => ?_, SpellsUnsigned.readUInt32?⟩
  obtain ⟨k, hk, rfl⟩ := Option.map_eq_some_iff.mp h
  obtain ⟨hspells, hlt⟩ := readUnsigned?_eq_some_iff.mp hk
  rwa [UInt32.toNat_ofNat_of_lt' hlt]

/-- Exactly the texts that spell a 64-bit number in base sixteen are read as it. -/
theorem readHexUInt64?_eq_some_iff {text : List Char} {m : UInt64} :
    readHexUInt64? text = some m ↔ SpellsUnsigned 16 text m.toNat := by
  refine ⟨fun h => ?_, SpellsUnsigned.readHexUInt64?⟩
  obtain ⟨k, hk, rfl⟩ := Option.map_eq_some_iff.mp h
  obtain ⟨hspells, hlt⟩ := readUnsigned?_eq_some_iff.mp hk
  rwa [UInt64.toNat_ofNat_of_lt' hlt]

theorem readUInt32?_decimal (n : UInt32) : readUInt32? (decimal n.toNat).toList = some n :=
  SpellsUnsigned.readUInt32? (.inl (spells_decimal _))

/-- Without a sign an integer is read as a natural number. -/
theorem readInt?_digits (h : ∀ c ∈ digits, c.isDigit = true) :
    readInt? digits = (readDigits? 10 digits).map Int.ofNat := by
  cases digits with
  | nil => rfl
  | cons c rest =>
    have hsign : c ≠ '-' := by
      rintro rfl
      exact absurd (h '-' List.mem_cons_self) (by decide)
    rw [readInt?]
    simpa using hsign

end Rejoin
