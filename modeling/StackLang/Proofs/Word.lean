import Mathlib.Data.List.Basic
import StackLang.Word

/-!
# Words and their spellings

A literal is read back from its spelling, whatever stands between the quotes of a string.
-/

namespace StackLang

namespace Decimal

/-- Integers are written with digits and signs only. -/
theorem of_read? {cs : List Char} {v : Int} (h : read? cs = some v) :
    ∀ c ∈ cs, c.isDigit = true ∨ c = '-' ∨ c = '+' := by
  have hdigits {ds : List Char} (hds : (readDigits? ds).isSome = true) :
      ∀ c ∈ ds, c.isDigit = true := by
    unfold readDigits? at hds
    split at hds
    · cases hds
    · split at hds
      · next hall => exact List.all_eq_true.1 hall
      · cases hds
  unfold read? at h
  split at h
  · obtain ⟨n, hn, -⟩ := Option.map_eq_some_iff.1 h
    exact List.forall_mem_cons.2 ⟨.inr (.inl rfl), fun c hc => .inl (hdigits (by simp [hn]) c hc)⟩
  · obtain ⟨n, hn, -⟩ := Option.map_eq_some_iff.1 h
    exact List.forall_mem_cons.2 ⟨.inr (.inr rfl), fun c hc => .inl (hdigits (by simp [hn]) c hc)⟩
  · obtain ⟨n, hn, -⟩ := Option.map_eq_some_iff.1 h
    exact fun c hc => .inl (hdigits (by simp [hn]) c hc)

/-- An integer is spelled with digits and minus signs. -/
theorem of_mem_text {v : Int} {c : Char} (h : c ∈ text v) : c.isDigit = true ∨ c = '-' := by
  unfold text at h
  split at h
  · rcases List.mem_cons.1 h with rfl | h
    · exact .inr rfl
    · exact .inl (isDigit_of_mem_digits h)
  · exact .inl (isDigit_of_mem_digits h)

theorem notMem_text {c : Char} (hdigit : c.isDigit = false) (hminus : c ≠ '-') (v : Int) :
    c ∉ text v := by
  intro hc
  rcases of_mem_text hc with h | h
  · cases hdigit.symm.trans h
  · exact hminus h

end Decimal

namespace Word

theorem isIdentifier_iff {w : Word} {name : String} :
    w.isIdentifier name = true ↔ w = .identifier name := by
  cases w <;> simp [isIdentifier, identifier?]

/-- A spelling with a quote in it is no integer. -/
theorem read?_of_quote {cs : List Char} (h : '"' ∈ cs) : Decimal.read? cs = none := by
  refine Option.eq_none_iff_forall_ne_some.2 fun v hv => ?_
  exact absurd (Decimal.of_read? hv '"' h) (by decide)

/-- **An integer is read back.** -/
theorem ofText_text_intLiteral (v : Int64) : ofText (intLiteral v).text = .intLiteral v := by
  rw [text, ofText, String.toList_ofList, Decimal.read?_text, Option.bind_some,
    Decimal.int64?_toInt]

/-- **A string is read back**, whatever stands between its quotes. -/
theorem ofText_text_stringLiteral (s : String) :
    ofText (stringLiteral s).text = .stringLiteral s := by
  have htext : (stringLiteral s).text.toList = '"' :: (s.toList ++ ['"']) := by
    simp [text, String.toList_append]
  have hunquote : unquote? ('"' :: (s.toList ++ ['"'])) = some s.toList := by
    simp [unquote?]
  rw [ofText, htext, read?_of_quote List.mem_cons_self, Option.bind_none, hunquote]
  simp

end Word

end StackLang
