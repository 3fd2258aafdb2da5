import Mathlib.Data.List.Basic
import StackLang.Source.Session

/-!
# The words of a line, piece by piece

Words are split at separators (`Quoting.words_append_cons`), and a text without separators is one
word (`Quoting.words_of_unmarked`). A comment is cut off behind any text that holds no marker and
cannot complete one (`Session.code_append`).
-/

namespace StackLang

/-! ## Blanks -/

namespace Text

theorem ne_of_isBlank {c d : Char} (hc : isBlank c = true) (hd : isBlank d = false) : c ≠ d := by
  rintro rfl
  cases hc.symm.trans hd

theorem isBlank_of_isDigit {c : Char} (h : c.isDigit = true) : isBlank c = false := by
  have hbounds : 48 ≤ c.toNat ∧ c.toNat ≤ 57 := by
    simpa [Char.isDigit, UInt32.le_iff_toNat_le] using h
  simp only [isBlank, blankRanges, List.any_eq_false, List.mem_cons, List.not_mem_nil, or_false,
    forall_eq_or_imp, forall_eq, Bool.and_eq_true, decide_eq_true_eq]
  omega

end Text

/-! ## Words -/

namespace Quoting

@[simp] theorem words_nil (q : Quoting) : q.words [] = [] := by
  simp [words, mark]

theorem map_fst_mark (q : Quoting) (text : List Char) : (q.mark text).map Prod.fst = text := by
  induction text generalizing q with
  | nil => rfl
  | cons c cs ih => simp [mark, ih]

/-- **Words are split at a separator.** -/
theorem words_append_cons {q : Quoting} (front : List Char) {c : Char} (rest : List Char)
    (h : ((q.after front).next c).separates c = true) :
    q.words (front ++ c :: rest) = q.words front ++ ((q.after front).next c).words rest := by
  have hsep : Prod.snd (c, ((q.after front).next c).separates c) = true := h
  simp only [words, mark_append, mark]
  rw [List.splitOnP_append_cons _ _ hsep, List.filter_append, List.map_append]

/-- **A text without separators is one word.** -/
theorem words_of_unmarked {q : Quoting} {raw : List Char} (hne : raw ≠ [])
    (h : ∀ m ∈ q.mark raw, m.2 = false) : q.words raw = [raw] := by
  have hmark : (q.mark raw).isEmpty = false := by
    cases raw with
    | nil => exact absurd rfl hne
    | cons c cs => rfl
  rw [words, List.splitOnP_eq_singleton h]
  simp [hmark, map_fst_mark]

/-- Where two texts have no separators, both together have none. -/
theorem unmarked_append {q : Quoting} {before front back : List Char}
    (hfront : ∀ m ∈ (q.after before).mark front, m.2 = false)
    (hback : ∀ m ∈ (q.after (before ++ front)).mark back, m.2 = false) :
    ∀ m ∈ (q.after before).mark (front ++ back), m.2 = false := by
  rw [mark_append, ← after_append]
  exact List.forall_mem_append.2 ⟨hfront, hback⟩

/-- A text without blanks has no separators. -/
theorem unmarked_of_forall_not_isBlank {q : Quoting} {text : List Char}
    (h : ∀ c ∈ text, Text.isBlank c = false) : ∀ m ∈ q.mark text, m.2 = false := by
  induction text generalizing q with
  | nil => exact nofun
  | cons c cs ih =>
    obtain ⟨hc, hcs⟩ := List.forall_mem_cons.1 h
    refine List.forall_mem_cons.2 ⟨?_, ih hcs⟩
    simp [separates, hc]

/-- Only a quote opens or closes a region. -/
theorem quoted_next {q : Quoting} {c : Char} (hc : c ≠ '"') : (q.next c).quoted = q.quoted := by
  have hquote : (c == '"') = false := beq_eq_false_iff_ne.2 hc
  simp [next, hquote]

theorem quoted_after {q : Quoting} {text : List Char} (h : '"' ∉ text) :
    (q.after text).quoted = q.quoted := by
  induction text generalizing q with
  | nil => rfl
  | cons c cs ih =>
    obtain ⟨hc, hcs⟩ := List.ne_and_not_mem_of_not_mem_cons h
    rw [after_cons, ih hcs, quoted_next hc.symm]

/-- Where a region stays open there are no separators. -/
theorem unmarked_of_open {q : Quoting} {text : List Char}
    (h : ∀ front, front <+: text → front ≠ [] → (q.after front).quoted = true) :
    ∀ m ∈ q.mark text, m.2 = false := by
  induction text generalizing q with
  | nil => exact nofun
  | cons c cs ih =>
    have hnext : (q.next c).quoted = true :=
      h [c] (List.cons_prefix_cons.2 ⟨rfl, List.nil_prefix⟩) (List.cons_ne_nil c [])
    refine List.forall_mem_cons.2 ⟨by simp [separates, hnext], ih fun front hfront _ => ?_⟩
    exact h (c :: front) (List.cons_prefix_cons.2 ⟨rfl, hfront⟩) (List.cons_ne_nil c front)

/-- Inside a quoted region there are no separators up to the next quote. -/
theorem unmarked_of_quoted {q : Quoting} (hq : q.quoted = true) {text : List Char}
    (h : '"' ∉ text) : ∀ m ∈ q.mark text, m.2 = false :=
  unmarked_of_open fun _ hfront _ => (quoted_after fun hmem => h (hfront.subset hmem)).trans hq

/-- Outside a quoted region a blank is a separator and leaves the flags cleared. -/
theorem next_of_isBlank {q : Quoting} {c : Char} (hq : q.quoted = false)
    (hc : Text.isBlank c = true) : q.next c = start ∧ (q.next c).separates c = true := by
  have hquote : c ≠ '"' := Text.ne_of_isBlank hc (by decide)
  have hslash : c ≠ '\\' := Text.ne_of_isBlank hc (by decide)
  have hnext : q.next c = start := by simp [next, start, hq, hquote, hslash]
  exact ⟨hnext, by simp [hnext, separates, start, hc]⟩

/-- Blanks outside a quoted region belong to no word. -/
theorem words_cons_of_isBlank {q : Quoting} {c : Char} (hq : q.quoted = false)
    (hc : Text.isBlank c = true) (rest : List Char) : q.words (c :: rest) = start.words rest := by
  obtain ⟨hnext, hsep⟩ := next_of_isBlank hq hc
  have hsplit := words_append_cons [] rest hsep
  simpa [hnext] using hsplit

/-- The escape flag says whether the last character was a backslash. -/
theorem escaped_after {q : Quoting} {text : List Char} (hne : text ≠ []) :
    (q.after text).escaped = (text.getLast? == some '\\') := by
  obtain ⟨front, c, rfl⟩ := (List.eq_nil_or_concat' text).resolve_left hne
  simp [after_append, next]

end Quoting

/-! ## Comments -/

theorem toList_commentMarker : commentMarker.toList = ['/', '/'] := by
  decide

theorem marker_isPrefix_iff {c : Char} {line : List Char} :
    commentMarker.toList <+: c :: line ↔ c = '/' ∧ line.head? = some '/' := by
  rw [toList_commentMarker, List.cons_prefix_cons, eq_comm]
  cases line with
  | nil => simp
  | cons d ds => simp [eq_comm]

/-- What is left of a line is the front of it. -/
theorem prefix_uncommented (marker line : List Char) : uncommented marker line <+: line := by
  induction line with
  | nil => exact List.prefix_rfl
  | cons c cs ih =>
    rw [uncommented]
    split
    · exact List.nil_prefix
    · exact List.cons_prefix_cons.2 ⟨rfl, ih⟩

namespace Session

@[simp] theorem code_nil : code [] = [] := rfl

theorem code_of_marker {c : Char} {line : List Char} (h : commentMarker.toList <+: c :: line) :
    code (c :: line) = [] := by
  rw [code, uncommented, if_pos (by simpa using h)]

theorem code_of_not_marker {c : Char} {line : List Char}
    (h : ¬ commentMarker.toList <+: c :: line) : code (c :: line) = c :: code line := by
  rw [code, uncommented, if_neg (by simpa using h), code]

/-- A character that is no slash starts no comment. -/
theorem code_cons {c : Char} (hc : c ≠ '/') (line : List Char) :
    code (c :: line) = c :: code line :=
  code_of_not_marker fun h => hc (marker_isPrefix_iff.1 h).1

theorem prefix_code (line : List Char) : code line <+: line :=
  prefix_uncommented _ line

/-- **A comment is cut off behind a text** that holds no marker and does not end in the middle of
one. -/
theorem code_append {front line : List Char} (h : ¬ commentMarker.toList <:+: front)
    (hjoin : front.getLast? = some '/' → line.head? ≠ some '/') :
    code (front ++ line) = front ++ code line := by
  induction front with
  | nil => rfl
  | cons c cs ih =>
    rw [List.infix_cons_iff, not_or] at h
    have hnone : ¬ commentMarker.toList <+: c :: (cs ++ line) := by
      intro hmarker
      obtain ⟨rfl, hslash⟩ := marker_isPrefix_iff.1 hmarker
      cases cs with
      | nil => exact hjoin rfl hslash
      | cons d ds => exact h.1 (marker_isPrefix_iff.2 ⟨rfl, hslash⟩)
    have hjoin' : cs.getLast? = some '/' → line.head? ≠ some '/' := by
      intro hlast
      refine hjoin ?_
      simp [List.getLast?_cons, hlast]
    rw [List.cons_append, code_of_not_marker hnone, ih h.2 hjoin', List.cons_append]

/-! ## Empty lines -/

@[simp] theorem lineTokens_nil (s : Session) : s.lineTokens [] = [] := by
  simp [lineTokens, lineWords]

@[simp] theorem afterLine_nil (s : Session) : s.afterLine [] = { s with row := s.row + 1 } := rfl

/-! ## Places -/

/-- The tokens of lines are placed in the session's file, each on one of the lines. -/
theorem location_of_mem_tokensOfLines {s : Session} {ls : List (List Char)} {t : Token}
    (h : t ∈ s.tokensOfLines ls) :
    t.location.file = s.file ∧ s.row ≤ t.location.row ∧ t.location.row < s.row + ls.length := by
  induction ls generalizing s with
  | nil => cases h
  | cons line ls ih =>
    rw [List.length_cons]
    rcases List.mem_append.1 h with hline | hrest
    · obtain ⟨raw, -, rfl⟩ := List.mem_map.1 hline
      exact ⟨rfl, Nat.le_refl _, Nat.lt_add_of_pos_right (Nat.succ_pos _)⟩
    · obtain ⟨hfile, hfirst, hlast⟩ := ih hrest
      have hrow : (s.afterLine line).row = s.row + 1 := rfl
      rw [hrow] at hfirst hlast
      exact ⟨hfile, by omega, by omega⟩

end Session

/-- A token of a file is placed there, on one of the lines of the text. -/
theorem location_of_mem_tokenize {file text : String} {t : Token} (h : t ∈ tokenize file text) :
    t.location.file = file ∧ t.location.row < (Text.lines text.toList).length := by
  obtain ⟨hfile, -, hrow⟩ := Session.location_of_mem_tokensOfLines h
  rw [Session.start, Nat.zero_add] at hrow
  exact ⟨hfile, hrow⟩

end StackLang
