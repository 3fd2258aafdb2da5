import Mathlib.Data.List.Basic
import StackLang.Text.Lines

/-!
# Texts line by line

A text without newlines is one line, or no line if it is empty. Any other text is a first line, a
newline and a shorter text, whose lines are the lines that follow (`lines_append_newline`). These
are all texts, which gives an induction over them (`lines_induction`).

What is written in front of a text without a newline belongs to the text's first line
(`lines_append`).
-/

namespace StackLang.Text

theorem lines_of_notMem {line : List Char} (h : '\n' ∉ line) (hne : line ≠ []) :
    lines line = [line] := by
  have hpieces : line.splitOn '\n' = [line] :=
    List.splitOnP_eq_singleton fun c hc => beq_eq_false_iff_ne.2 fun he => h (he ▸ hc)
  simp [lines, hpieces, linesOfPieces, hne]

/-- **A newline ends the first line**, and the lines of what follows it are the other lines. -/
theorem lines_append_newline {line : List Char} (h : '\n' ∉ line) (rest : List Char) :
    lines (line ++ '\n' :: rest) = dropReturn line :: lines rest := by
  have hline : line.splitOn '\n' = [line] :=
    List.splitOnP_eq_singleton fun c hc => beq_eq_false_iff_ne.2 fun he => h (he ▸ hc)
  have hpieces : (line ++ '\n' :: rest).splitOn '\n' = line :: rest.splitOn '\n' := by
    have hsplit := List.splitOnP_append_cons (p := (· == '\n')) line rest (beq_self_eq_true '\n')
    rw [← List.splitOn, ← List.splitOn, ← List.splitOn, hline] at hsplit
    exact hsplit
  rw [lines, hpieces, lines]
  cases hrest : rest.splitOn '\n' with
  | nil => exact absurd hrest (List.splitOnP_ne_nil _ _)
  | cons piece pieces => rw [linesOfPieces]

/-- Behind the first line there is one newline more. -/
theorem count_append_newline {line : List Char} (h : '\n' ∉ line) (rest : List Char) :
    (line ++ '\n' :: rest).count '\n' = rest.count '\n' + 1 := by
  simp [List.count_eq_zero.2 h]

/-- Induction over the lines of a text. -/
theorem lines_induction {motive : List Char → Prop}
    (last : ∀ line, '\n' ∉ line → motive line)
    (newline : ∀ line rest, '\n' ∉ line → motive rest → motive (line ++ '\n' :: rest))
    (text : List Char) : motive text := by
  induction hn : text.length using Nat.strongRecOn generalizing text with
  | ind n ih =>
    by_cases hmem : '\n' ∈ text
    · obtain ⟨line, rest, rfl, hline⟩ := List.eq_append_cons_of_mem hmem
      refine newline line rest hline (ih rest.length ?_ rest rfl)
      simp only [← hn, List.length_append, List.length_cons]
      omega
    · exact last text hmem

theorem prefix_dropReturn (line : List Char) : dropReturn line <+: line := by
  unfold dropReturn
  split
  · exact List.dropLast_prefix line
  · exact List.prefix_rfl

theorem eq_dropReturn (line : List Char) :
    line = dropReturn line ∨ line = dropReturn line ++ ['\r'] := by
  unfold dropReturn
  split
  · next hlast =>
    obtain ⟨front, rfl⟩ := List.getLast?_eq_some_iff.1 hlast
    exact .inr (by simp)
  · exact .inl rfl

/-- A front of a text ends on the first line or behind its newline. -/
theorem of_prefix_newline {front line rest : List Char} (h : front <+: line ++ '\n' :: rest) :
    front <+: line ∨ ∃ m, m <+: rest ∧ front = line ++ '\n' :: m := by
  rcases List.prefix_or_prefix_of_prefix h (List.prefix_append line _) with hle | ⟨tail, rfl⟩
  · exact .inl hle
  · rcases List.prefix_cons_iff.1 ((List.prefix_append_right_inj line).1 h) with rfl | ⟨m, rfl, hm⟩
    · exact .inl (by simp)
    · exact .inr ⟨m, hm, rfl⟩

theorem dropReturn_append {line : List Char} (hne : line ≠ []) (front : List Char) :
    dropReturn (front ++ line) = front ++ dropReturn line := by
  simp only [dropReturn, List.getLast?_append_of_ne_nil _ hne, List.dropLast_append_of_ne_nil hne]
  split <;> rfl

/-- **The first line starts with what is written in front of it.** Only a carriage return that is
written in front of a newline belongs to no line. -/
theorem lines_append {front : List Char} (h : '\n' ∉ front) (hne : front ≠ []) (text : List Char) :
    (text = [] ∧ lines front = [front]) ∨
    ∃ line rest, line <+: text ∧ lines text = line :: rest ∧
      (lines (front ++ text) = (front ++ line) :: rest ∨
        (line = [] ∧ lines (front ++ text) = dropReturn front :: rest)) := by
  by_cases hmem : '\n' ∈ text
  · obtain ⟨line, rest, rfl, hline⟩ := List.eq_append_cons_of_mem hmem
    have hlines : lines (front ++ (line ++ '\n' :: rest)) =
        dropReturn (front ++ line) :: lines rest := by
      rw [← List.append_assoc]
      exact lines_append_newline (by simp [h, hline]) rest
    refine .inr ⟨dropReturn line, lines rest, ?_, lines_append_newline hline rest, ?_⟩
    · exact (prefix_dropReturn line).trans (List.prefix_append _ _)
    · by_cases hnil : line = []
      · subst hnil
        exact .inr ⟨rfl, by simpa using hlines⟩
      · exact .inl (hlines.trans (by rw [dropReturn_append hnil]))
  · by_cases hnil : text = []
    · exact .inl ⟨hnil, lines_of_notMem h hne⟩
    · refine .inr ⟨text, [], List.prefix_rfl, lines_of_notMem hmem hnil, .inl ?_⟩
      exact lines_of_notMem (by simp [h, hmem]) (by simp [hne])

end StackLang.Text
