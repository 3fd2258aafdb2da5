import Mathlib.Data.Nat.Digits.Defs
import Mathlib.Data.List.Induction
import StackLang.Proofs.Word

/-!
# What a spelling stands for

Every spelling is that of exactly one word, and which one can be said without reading it from left
to right. A decimal numeral (`Decimal.Numeral`) whose value fits into 64 bits is an integer literal,
a text between two quotes is a string literal, and any other spelling is an identifier.

**Theorem (`Word.ofText_classifies`).** This is how `Word.ofText` classifies, and every literal and
every word that has a spelling is read back from the text that is written for it.

Reading folds digits from the left, and the value of a numeral is a sum over powers of ten. They
agree by an induction from the last digit (`Decimal.ofDigitChars_eq_value`). The value is compared
with the range before it becomes a literal, so a long numeral does not wrap around.
-/

namespace StackLang

/-! ## Numerals -/

namespace Decimal

/-- The decimal digits of ASCII; the digits of other scripts are none of them. -/
def IsDigit (c : Char) : Prop :=
  '0' ≤ c ∧ c ≤ '9'

instance : DecidablePred IsDigit :=
  fun c => inferInstanceAs (Decidable ('0' ≤ c ∧ c ≤ '9'))

/-- The value of digits, the most significant first: a digit with `k` others behind it counts
`10 ^ k` times. -/
def value (ds : List Char) : Nat :=
  Nat.ofDigits 10 (ds.reverse.map fun d => d.toNat - '0'.toNat)

/-- One or more digits, and at most one sign in front of them, have this integer as their value. -/
inductive Numeral : List Char → Int → Prop
  | unsigned {ds : List Char} (hne : ds ≠ []) (h : ∀ d ∈ ds, IsDigit d) : Numeral ds (value ds)
  | plus {ds : List Char} (hne : ds ≠ []) (h : ∀ d ∈ ds, IsDigit d) :
      Numeral ('+' :: ds) (value ds)
  | minus {ds : List Char} (hne : ds ≠ []) (h : ∀ d ∈ ds, IsDigit d) :
      Numeral ('-' :: ds) (-value ds)

theorem isDigit_iff {c : Char} : c.isDigit = true ↔ IsDigit c :=
  Char.isDigit_iff_toNat

/-- **Folding the digits gives their value.** -/
theorem ofDigitChars_eq_value (ds : List Char) : Nat.ofDigitChars 10 ds 0 = value ds := by
  induction ds using List.reverseRecOn with
  | nil => rfl
  | append_singleton ds d ih =>
    rw [Nat.ofDigitChars_append, ih, value, value, List.reverse_append, List.reverse_singleton,
      List.singleton_append, List.map_cons, Nat.ofDigits_cons, Nat.ofDigitChars_cons,
      Nat.ofDigitChars_nil, Nat.add_comm]

theorem readDigits?_eq_some_iff {ds : List Char} {n : Nat} :
    readDigits? ds = some n ↔ ds ≠ [] ∧ (∀ d ∈ ds, IsDigit d) ∧ value ds = n := by
  have hall : ds.all Char.isDigit = true ↔ ∀ d ∈ ds, IsDigit d := by
    simp only [List.all_eq_true, isDigit_iff]
  rw [readDigits?, ofDigitChars_eq_value]
  by_cases hnil : ds = []
  · simp [hnil]
  · by_cases hdigits : ∀ d ∈ ds, IsDigit d
    · rw [if_neg (by simpa using hnil), if_pos (hall.2 hdigits), Option.some.injEq,
        and_iff_right hnil, and_iff_right hdigits]
    · rw [if_neg (by simpa using hnil), if_neg (mt hall.1 hdigits)]
      simp [hdigits]

/-- **What can be read are the numerals**, with their value. -/
theorem read?_eq_some_iff {cs : List Char} {v : Int} : read? cs = some v ↔ Numeral cs v := by
  constructor
  · intro h
    unfold read? at h
    split at h <;> obtain ⟨n, hn, rfl⟩ := Option.map_eq_some_iff.1 h <;>
      obtain ⟨hne, hdigits, rfl⟩ := readDigits?_eq_some_iff.1 hn
    · exact .minus hne hdigits
    · exact .plus hne hdigits
    · exact .unsigned hne hdigits
  · intro h
    cases h with
    | unsigned hne hdigits =>
      -- digits in front are no signs
      have hread := readDigits?_eq_some_iff.2 ⟨hne, hdigits, rfl⟩
      unfold read?
      split
      · exact absurd (hdigits '-' List.mem_cons_self) (by decide)
      · exact absurd (hdigits '+' List.mem_cons_self) (by decide)
      · rw [hread, Option.map_some]
    | plus hne hdigits =>
      rw [read?, readDigits?_eq_some_iff.2 ⟨hne, hdigits, rfl⟩, Option.map_some]
    | minus hne hdigits =>
      rw [read?, readDigits?_eq_some_iff.2 ⟨hne, hdigits, rfl⟩, Option.map_some]

/-- **The range**: the integers with a 64-bit value. -/
theorem exists_toInt_iff {n : Int} :
    (∃ v : Int64, v.toInt = n) ↔ -2 ^ 63 ≤ n ∧ n ≤ 2 ^ 63 - 1 := by
  constructor
  · rintro ⟨v, rfl⟩
    exact ⟨v.le_toInt, Int.le_sub_one_of_lt v.toInt_lt⟩
  · rintro ⟨hmin, hmax⟩
    exact ⟨.ofInt n, Int64.toInt_ofInt_of_le hmin (Int.lt_of_le_sub_one hmax)⟩

theorem int64?_eq_some_iff {n : Int} {v : Int64} : int64? n = some v ↔ v.toInt = n := by
  constructor
  · intro h
    unfold int64? at h
    split at h
    · next hrange =>
      cases h
      exact Int64.toInt_ofInt_of_le hrange.1 (Int.lt_of_le_sub_one hrange.2)
    · cases h
  · rintro rfl
    exact int64?_toInt v

end Decimal

/-! ## Words -/

namespace Word

open Decimal

theorem unquote?_eq_some_iff {cs text : List Char} :
    unquote? cs = some text ↔ cs = '"' :: (text ++ ['"']) := by
  constructor
  · intro h
    unfold unquote? at h
    split at h
    · split at h
      · next cs hlast =>
        cases h
        obtain ⟨front, rfl⟩ := List.getLast?_eq_some_iff.1 hlast
        simp
      · cases h
    · cases h
  · rintro rfl
    simp [unquote?]

theorem bind_int64?_eq_some_iff {cs : List Char} {v : Int64} :
    (read? cs).bind int64? = some v ↔ Numeral cs v.toInt := by
  simp only [Option.bind_eq_some_iff, read?_eq_some_iff, int64?_eq_some_iff, exists_eq_right']

theorem ofText_eq_intLiteral_iff {raw : String} {v : Int64} :
    ofText raw = .intLiteral v ↔ Numeral raw.toList v.toInt := by
  rw [← bind_int64?_eq_some_iff]
  unfold ofText
  split
  · next v' hv => rw [hv, intLiteral.injEq, Option.some.injEq]
  · next hnone =>
    rw [hnone]
    split <;> simp

theorem ofText_eq_stringLiteral_iff {raw s : String} :
    ofText raw = .stringLiteral s ↔ raw = "\"" ++ s ++ "\"" := by
  constructor
  · intro h
    unfold ofText at h
    split at h
    · cases h
    · split at h
      · next text htext =>
        cases h
        rw [← String.toList_inj, unquote?_eq_some_iff.1 htext]
        simp [String.toList_append]
      · cases h
  · rintro rfl
    exact ofText_text_stringLiteral s

theorem eq_of_ofText_eq_identifier {raw name : String} (h : ofText raw = .identifier name) :
    name = raw := by
  unfold ofText at h
  split at h
  · cases h
  · split at h
    · cases h
    · cases h
      rfl

/-- **What a spelling stands for is read back**, also if a sign or zeros in front are lost. -/
theorem ofText_text_ofText (raw : String) : ofText (ofText raw).text = ofText raw := by
  cases hword : ofText raw with
  | intLiteral v => exact ofText_text_intLiteral v
  | stringLiteral s => exact ofText_text_stringLiteral s
  | identifier name =>
    obtain rfl := eq_of_ofText_eq_identifier hword
    exact hword

/-- **Classification is exact, and inverse to writing.** A spelling is that of an integer literal if
it is a numeral with a value in the range of 64 bits, whatever zeros are in front; that of a string
literal if it is a text between two quotes; and that of the identifier with this name otherwise. A
literal is read back from its text, and so is any word that a spelling stands for. -/
theorem ofText_classifies :
    (∀ (raw : String) (n : Int), (∃ v : Int64, v.toInt = n ∧ ofText raw = .intLiteral v) ↔
      Numeral raw.toList n ∧ -2 ^ 63 ≤ n ∧ n ≤ 2 ^ 63 - 1) ∧
    (∀ raw s : String, ofText raw = .stringLiteral s ↔ raw = "\"" ++ s ++ "\"") ∧
    (∀ raw name : String, ofText raw = .identifier name ↔ name = raw ∧
      (¬ ∃ n : Int, Numeral raw.toList n ∧ -2 ^ 63 ≤ n ∧ n ≤ 2 ^ 63 - 1) ∧
      ¬ ∃ s : String, raw = "\"" ++ s ++ "\"") ∧
    (∀ v : Int64, ofText (intLiteral v).text = .intLiteral v) ∧
    (∀ s : String, ofText (stringLiteral s).text = .stringLiteral s) ∧
    ∀ raw : String, ofText (ofText raw).text = ofText raw := by
  have hint (raw : String) (n : Int) : (∃ v : Int64, v.toInt = n ∧ ofText raw = .intLiteral v) ↔
      Numeral raw.toList n ∧ -2 ^ 63 ≤ n ∧ n ≤ 2 ^ 63 - 1 := by
    rw [← exists_toInt_iff]
    constructor
    · rintro ⟨v, rfl, hv⟩
      exact ⟨ofText_eq_intLiteral_iff.1 hv, v, rfl⟩
    · rintro ⟨hnumeral, v, rfl⟩
      exact ⟨v, rfl, ofText_eq_intLiteral_iff.2 hnumeral⟩
  refine ⟨hint, fun raw s => ofText_eq_stringLiteral_iff, fun raw name => ⟨fun h => ?_, ?_⟩,
    ofText_text_intLiteral, ofText_text_stringLiteral, ofText_text_ofText⟩
  · refine ⟨eq_of_ofText_eq_identifier h, ?_, ?_⟩
    · rintro ⟨n, hn⟩
      obtain ⟨v, -, hv⟩ := (hint raw n).2 hn
      cases h.symm.trans hv
    · rintro ⟨s, hs⟩
      cases h.symm.trans (ofText_eq_stringLiteral_iff.2 hs)
  · rintro ⟨rfl, hnumeral, hquoted⟩
    cases hword : ofText name with
    | intLiteral v => exact absurd ⟨v.toInt, (hint name _).1 ⟨v, rfl, hword⟩⟩ hnumeral
    | stringLiteral s => exact absurd ⟨s, ofText_eq_stringLiteral_iff.1 hword⟩ hquoted
    | identifier name' => rw [eq_of_ofText_eq_identifier hword]

/-- The range has one negative integer more. -/
example : ofText "-0009223372036854775808" = .intLiteral Int64.minValue ∧
    ofText "+9223372036854775808" = .identifier "+9223372036854775808" := by
  decide +kernel

end Word

end StackLang
