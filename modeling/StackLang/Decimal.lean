/-!
# Decimal numbers

Integers are written in base ten, with a minus sign if they are negative and without padding.
Reading is more generous than writing: one sign of either kind and any number of leading zeros
are accepted. What was written reads back:

**`read?_text`.** For every integer `v`, `read? (text v) = some v`.
-/

namespace StackLang.Decimal

/-- The digits of `n`, most significant first. -/
def digits (n : Nat) : List Char :=
  Nat.toDigits 10 n

/-- A negative integer carries a minus sign, any other integer no sign. -/
def text (v : Int) : List Char :=
  if v < 0 then '-' :: digits v.natAbs else digits v.natAbs

/-- One or more decimal digits and nothing else. -/
def readDigits? (cs : List Char) : Option Nat :=
  if cs.isEmpty then none
  else if cs.all Char.isDigit then some (Nat.ofDigitChars 10 cs 0)
  else none

/-- At most one sign, then one or more digits. -/
def read? : List Char → Option Int
  | '-' :: cs => (readDigits? cs).map fun n : Nat => -(n : Int)
  | '+' :: cs => (readDigits? cs).map fun n : Nat => (n : Int)
  | cs => (readDigits? cs).map fun n : Nat => (n : Int)

/-- The 64-bit value of an integer, if it has one. -/
def int64? (v : Int) : Option Int64 :=
  if Int64.minValue.toInt ≤ v ∧ v ≤ Int64.maxValue.toInt then some (Int64.ofInt v) else none

/-! ## Writing and reading back -/

theorem digits_ne_nil (n : Nat) : digits n ≠ [] :=
  Nat.toDigits_ne_nil

theorem isDigit_of_mem_digits {n : Nat} {c : Char} (h : c ∈ digits n) : c.isDigit = true :=
  Nat.isDigit_of_mem_toDigits (by decide) (by decide) h

theorem readDigits?_digits (n : Nat) : readDigits? (digits n) = some n := by
  have hall : (digits n).all Char.isDigit = true :=
    List.all_eq_true.2 fun c hc => isDigit_of_mem_digits hc
  rw [readDigits?, if_neg (by simpa using digits_ne_nil n), if_pos hall]
  exact congrArg some Nat.ofDigitChars_ten_toDigits

/-- The digits of a number start with a digit, so no sign is mistaken for one. -/
theorem read?_digits (n : Nat) : read? (digits n) = some (n : Int) := by
  have hread := readDigits?_digits n
  cases hd : digits n with
  | nil => exact absurd hd (digits_ne_nil n)
  | cons c cs =>
    have hc : c.isDigit = true := isDigit_of_mem_digits (n := n) (by simp [hd])
    have hminus : c ≠ '-' := by rintro rfl; exact absurd hc (by decide)
    have hplus : c ≠ '+' := by rintro rfl; exact absurd hc (by decide)
    rw [hd] at hread
    unfold read?
    split
    · next h => exact absurd (List.cons.inj h).1 hminus
    · next h => exact absurd (List.cons.inj h).1 hplus
    · simp [hread]

theorem read?_text (v : Int) : read? (text v) = some v := by
  unfold text
  split
  · next h =>
    rw [read?, readDigits?_digits, Option.map_some]
    exact congrArg some (by omega)
  · next h =>
    rw [read?_digits]
    exact congrArg some (by omega)

theorem int64?_toInt (v : Int64) : int64? v.toInt = some v := by
  rw [int64?, if_pos ⟨Int64.minValue_le_toInt v, v.toInt_le⟩, Int64.ofInt_toInt]

end StackLang.Decimal
