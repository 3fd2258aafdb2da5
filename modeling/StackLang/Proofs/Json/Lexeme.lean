import Mathlib.Data.List.Basic
import Mathlib.Data.List.TakeWhile
import StackLang.Json.Layout
import StackLang.Json.Lexeme

/-!
# Scanning what was written

A leaf can be read back from its text if it is `Plain`: a number has to be spelled as a number, and
a string has to be made of characters.

**Theorem (`scan_leaf`).** The text of a plain leaf is scanned as that leaf, whatever follows it,
unless a number is followed by one more character that numbers are made of.

Strings come first. A code point is written as a short form, by its value or as itself, and is read
back from each of the three (`string?_writeCode`).
-/

namespace StackLang.Json

/-! ## Strings -/

theorem string?_shortForm {n : Nat} {e : Char} (hu : e ≠ 'u') (hform : ofShortForm? e = some n)
    (cs : List Char) :
    string? ('\\' :: e :: cs) = (string? cs).map fun (codes, rest) => (n :: codes, rest) := by
  rw [string?, hform]
  · cases string? cs <;> rfl
  · intro _ _ _ _ _ he
    exact absurd he hu

theorem string?_value {n : Nat} {a b c d : Char} (hhex : hex? [a, b, c, d] = some n)
    (cs : List Char) : string? ('\\' :: 'u' :: a :: b :: c :: d :: cs) =
      (string? cs).map fun (codes, rest) => (n :: codes, rest) := by
  rw [string?, hhex]
  cases string? cs <;> rfl

theorem string?_self {c : Char} (hquote : c ≠ '"') (hslash : c ≠ '\\') (hcontrol : 0x20 ≤ c.toNat)
    (cs : List Char) :
    string? (c :: cs) = (string? cs).map fun (codes, rest) => (c.toNat :: codes, rest) := by
  have hplain : ¬ (c = '\\' ∨ c.toNat < 0x20) := not_or.2 ⟨hslash, Nat.not_lt.2 hcontrol⟩
  rw [string?, if_neg hplain]
  · exact hquote
  · intro _ _ _ _ _ he
    exact absurd he hslash
  · intro _ _ he
    exact absurd he hslash

/-- A short form stands for the code point from which it was made. -/
theorem ofShortForm?_of_mem {n : Nat} {e : Char} (h : (n, e) ∈ shortForms) :
    e ≠ 'u' ∧ ofShortForm? e = some n := by
  have hall : ∀ f ∈ shortForms, f.2 ≠ 'u' ∧ ofShortForm? f.2 = some f.1 := by decide
  exact hall (n, e) h

/-- A control is written by its value, in four digits. -/
theorem exists_hex? {n : Nat} (h : n < 0x20) :
    ∃ a b c d, (Nat.toDigits 16 n).leftpad 4 '0' = [a, b, c, d] ∧ hex? [a, b, c, d] = some n := by
  have hall : ∀ n < 0x20, ((Nat.toDigits 16 n).leftpad 4 '0').length = 4 ∧
      hex? ((Nat.toDigits 16 n).leftpad 4 '0') = some n := by decide
  obtain ⟨hlength, hhex⟩ := hall n h
  match hdigits : (Nat.toDigits 16 n).leftpad 4 '0', hlength with
  | [a, b, c, d], _ => exact ⟨a, b, c, d, rfl, hdigits ▸ hhex⟩

/-- **A code point is read back**, in whichever way it is written. -/
theorem string?_writeCode {n : Nat} (hn : n.isValidChar) (cs : List Char) :
    string? (writeCode n ++ cs) = (string? cs).map fun (codes, rest) => (n :: codes, rest) := by
  unfold writeCode
  split
  · next m e hfind =>
    obtain rfl : m = n := by simpa using List.find?_some hfind
    obtain ⟨hu, hform⟩ := ofShortForm?_of_mem (List.mem_of_find?_eq_some hfind)
    exact string?_shortForm hu hform cs
  · next hfind =>
    split
    · next hcontrol =>
      have hlt : n < 0x20 := by simpa [hn] using hcontrol
      obtain ⟨a, b, c, d, hdigits, hhex⟩ := exists_hex? hlt
      rw [hdigits]
      exact string?_value hhex cs
    · next hplain =>
      have hvalue : (Char.ofNat n).toNat = n := by
        rw [Char.ofNat, dif_pos hn]
        rfl
      have hshort : ∀ f ∈ shortForms, f.1 ≠ n := by simpa using hfind
      have hself : ∀ c : Char, (∃ f ∈ shortForms, f.1 = c.toNat) → Char.ofNat n ≠ c := by
        rintro c ⟨f, hf, hc⟩ rfl
        exact hshort f hf (hc.trans hvalue)
      have h := string?_self (hself '"' (by decide)) (hself '\\' (by decide)) (by omega) cs
      rwa [hvalue] at h

/-- **A string is read back** up to its closing quote, and what follows it is left. -/
theorem string?_write {codes : List Nat} (h : ∀ n ∈ codes, n.isValidChar) (rest : List Char) :
    string? (codes.flatMap writeCode ++ '"' :: rest) = some (codes, rest) := by
  induction codes with
  | nil => rw [List.flatMap_nil, List.nil_append, string?]
  | cons n codes ih =>
    obtain ⟨hn, hcodes⟩ := List.forall_mem_cons.1 h
    rw [List.flatMap_cons, List.append_assoc, string?_writeCode hn, ih hcodes, Option.map_some]

/-! ## Numbers -/

/-- A number starts with a sign or a digit. -/
theorem head_of_isNumber {c : Char} {cs : List Char} (h : isNumber (c :: cs) = true) :
    c = '-' ∨ c.isDigit = true := by
  unfold isNumber at h
  split at h
  · next heq => exact .inl (List.cons.inj heq).1
  · unfold isUnsigned at h
    split at h
    · next heq => cases heq
    · next heq => exact .inr ((List.cons.inj heq).1 ▸ rfl)
    · next heq =>
      obtain ⟨rfl, -⟩ := List.cons.inj heq
      exact .inr (Bool.and_eq_true_iff.1 h).1

/-- The digits of a number that is not zero start with another digit. -/
theorem head_digits {n : Nat} (hn : 0 < n) : (Decimal.digits n).head? ≠ some '0' := by
  induction n using Nat.strongRecOn with
  | ind n ih =>
    unfold Decimal.digits at ih ⊢
    by_cases hlt : n < 10
    · rw [Nat.toDigits_of_lt_base hlt]
      have hall : ∀ n < 10, 0 < n → [n.digitChar].head? ≠ some '0' := by decide
      exact hall n hlt hn
    · have hle : 10 ≤ n := Nat.le_of_not_lt hlt
      rw [Nat.toDigits_of_base_le (by decide) hle,
        List.head?_append_of_ne_nil _ Nat.toDigits_ne_nil]
      exact ih (n / 10) (Nat.div_lt_self hn (by decide)) (Nat.div_pos hle (by decide))

theorem isUnsigned_digits (n : Nat) : isUnsigned (Decimal.digits n) = true := by
  have hdigit : ∀ c ∈ Decimal.digits n, c.isDigit = true := fun c hc =>
    Decimal.isDigit_of_mem_digits hc
  rcases Nat.eq_zero_or_pos n with rfl | hn
  · decide
  · have hhead := head_digits hn
    cases hd : Decimal.digits n with
    | nil => exact absurd hd (Decimal.digits_ne_nil n)
    | cons c cs =>
      rw [hd] at hdigit hhead
      obtain ⟨hc, hcs⟩ := List.forall_mem_cons.1 hdigit
      have hrest : cs.dropWhile Char.isDigit = [] := List.dropWhile_eq_nil_iff.2 hcs
      unfold isUnsigned
      split
      · next heq => cases heq
      · next heq => exact absurd (congrArg some (List.cons.inj heq).1) hhead
      · next heq =>
        obtain ⟨rfl, rfl⟩ := List.cons.inj heq
        rw [hc, hrest]
        rfl

/-- An integer is spelled as a number. -/
theorem isNumber_text (v : Int) : isNumber (Decimal.text v) = true := by
  have hunsigned := isUnsigned_digits v.natAbs
  unfold Decimal.text
  split
  · exact hunsigned
  · cases hd : Decimal.digits v.natAbs with
    | nil => exact absurd hd (Decimal.digits_ne_nil _)
    | cons c cs =>
      rw [hd] at hunsigned
      unfold isNumber
      split
      · next heq =>
        have hc : c.isDigit = true := Decimal.isDigit_of_mem_digits (hd ▸ List.mem_cons_self)
        rw [(List.cons.inj heq).1] at hc
        cases hc
      · exact hunsigned

theorem isNumberChar_of_mem_text {v : Int} {c : Char} (h : c ∈ Decimal.text v) :
    isNumberChar c = true := by
  have hdigit {c : Char} (hc : c ∈ Decimal.digits v.natAbs) : isNumberChar c = true := by
    simp [isNumberChar, Decimal.isDigit_of_mem_digits hc]
  unfold Decimal.text at h
  split at h
  · rcases List.mem_cons.1 h with rfl | h
    · decide
    · exact hdigit h
  · exact hdigit h

/-! ## Leaves -/

/-- A leaf that can be read back. -/
def Leaf.Plain : Leaf → Prop
  | number spelling => isNumber spelling = true ∧ ∀ c ∈ spelling, isNumberChar c = true
  | string codes => ∀ n ∈ codes, n.isValidChar
  | _ => True

theorem Leaf.plain_text (v : Int) : (Leaf.number (Decimal.text v)).Plain :=
  ⟨isNumber_text v, fun _ => isNumberChar_of_mem_text⟩

theorem Leaf.plain_codes (text : String) : (Leaf.string (codes text)).Plain := by
  intro n hn
  obtain ⟨c, -, rfl⟩ := List.mem_map.1 hn
  exact isValidChar_toNat c

/-- A number can end before this text. -/
def Stops (rest : List Char) : Prop :=
  ∀ c ∈ rest.head?, isNumberChar c = false

theorem stops_nil : Stops [] :=
  nofun

theorem stops_cons {c : Char} (h : isNumberChar c = false) (cs : List Char) : Stops (c :: cs) := by
  intro d hd
  cases hd
  exact h

/-- Layout is skipped. -/
theorem scan_layout {ws : List Char} (h : ∀ c ∈ ws, isLayout c = true) (cs : List Char) :
    scan (ws ++ cs) = scan cs := by
  induction ws with
  | nil => rfl
  | cons c ws ih =>
    obtain ⟨hc, hws⟩ := List.forall_mem_cons.1 h
    rw [List.cons_append, scan, if_pos hc, ih hws]

/-- Scanning takes the first lexeme, and goes on behind it. -/
theorem scan_of_next? {c : Char} {cs rest : List Char} {l : Lexeme}
    (hc : isLayout c = false) (h : next? (c :: cs) = some (l, rest)) :
    scan (c :: cs) = (scan rest).map (l :: ·) := by
  rw [scan, hc, if_neg Bool.false_ne_true]
  split
  · next hnone => cases h.symm.trans hnone
  · next hsome => cases h.symm.trans hsome; rfl

theorem next?_number {c : Char} {cs rest : List Char} (h : (Leaf.number (c :: cs)).Plain)
    (hrest : Stops rest) :
    next? (c :: cs ++ rest) = some (.leaf (.number (c :: cs)), rest) := by
  obtain ⟨hnumber, hchars⟩ := h
  have htake : (c :: cs ++ rest).takeWhile isNumberChar = c :: cs := by
    rw [List.takeWhile_append_of_pos hchars]
    cases rest with
    | nil => simp
    | cons d ds => simp [hrest d rfl]
  have hdrop : (c :: cs ++ rest).dropWhile isNumberChar = rest := by
    rw [List.dropWhile_append_of_pos hchars]
    cases rest with
    | nil => rfl
    | cons d ds => simp [hrest d rfl]
  have hc := head_of_isNumber hnumber
  unfold next?
  split
  case h_11 => simp only [htake, hdrop, hnumber, if_true]
  all_goals
    next heq =>
    rw [(List.cons.inj heq).1] at hc
    exact absurd hc (by decide)

/-- **A plain leaf is scanned as itself.** -/
theorem scan_leaf {l : Leaf} (h : l.Plain) {rest : List Char} (hrest : Stops rest) :
    scan (l.write ++ rest) = (scan rest).map (.leaf l :: ·) := by
  cases l with
  | null => exact scan_of_next? rfl rfl
  | bool value => cases value <;> exact scan_of_next? rfl rfl
  | number spelling =>
    cases spelling with
    | nil => cases h.1
    | cons c cs =>
      refine scan_of_next? ?_ (next?_number h hrest)
      rcases head_of_isNumber h.1 with rfl | hdigit
      · rfl
      · have hne (d : Char) (hd : d.isDigit = false) : (c == d) = false := by
          rw [beq_eq_false_iff_ne]
          rintro rfl
          cases hdigit.symm.trans hd
        simp [isLayout, hne]
  | string codes =>
    have hstring : next? ('"' :: (codes.flatMap writeCode ++ '"' :: rest)) =
        some (.leaf (.string codes), rest) := by
      rw [next?, string?_write h]
      rfl
    have htext : (Leaf.string codes).write ++ rest =
        '"' :: (codes.flatMap writeCode ++ '"' :: rest) := by
      simp [Leaf.write, writeString]
    rw [htext]
    exact scan_of_next? rfl hstring

end StackLang.Json
