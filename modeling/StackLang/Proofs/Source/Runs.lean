import Mathlib.Logic.Function.Iterate
import StackLang.Proofs.Source.Line

/-!
# The words of a line are its runs

What the words of a line are can be said with positions alone, without reading the line from left to
right. A quote toggles if no backslash is just before it. A position is quoted if the carried state,
flipped once for each toggling quote up to there, says so. A blank is a separator if its position is
not quoted. The words are the maximal runs of positions that are no separators.

**Theorem (`Session.lineWords_eq_runs`).** The words of a line are exactly these runs of the text in
front of its first comment, in their order, and the flags afterwards are those at the end of this
text.

A list that is split at separators falls into its maximal runs (`exists_runs_splitOnP`), because
what is in front of the first separator is one run or nothing, and the others are runs of the rest
(`Span.isRun_iff_of_first`).
-/

namespace StackLang

/-! ## Maximal runs -/

/-- The positions from `start` on and before `stop`. -/
structure Span where
  start : Nat
  stop : Nat
deriving DecidableEq

namespace Span

/-- The elements of a list at these positions. -/
def slice {α : Type} (r : Span) (xs : List α) : List α :=
  (xs.take r.stop).drop r.start

/-- The same span further back. -/
def shift (r : Span) (n : Nat) : Span :=
  ⟨n + r.start, n + r.stop⟩

@[simp] theorem shift_start (r : Span) (n : Nat) : (r.shift n).start = n + r.start := rfl

@[simp] theorem shift_stop (r : Span) (n : Nat) : (r.shift n).stop = n + r.stop := rfl

/-- One or more positions below `size`, none of them a separator, that cannot be extended: what is
next to them on either side is a separator, if there is anything. -/
structure IsRun (sep : Nat → Prop) (size : Nat) (r : Span) : Prop where
  nonempty : r.start < r.stop
  within : r.stop ≤ size
  inside : ∀ i, r.start ≤ i → i < r.stop → ¬ sep i
  left : ∀ i, i + 1 = r.start → sep i
  right : r.stop < size → sep r.stop

variable {α : Type} {sep : Nat → Prop} {size n : Nat} {r : Span}

theorem slice_map {β : Type} (f : α → β) (r : Span) (xs : List α) :
    r.slice (xs.map f) = (r.slice xs).map f := by
  simp [slice]

theorem slice_shift (r : Span) (front rest : List α) :
    (r.shift front.length).slice (front ++ rest) = r.slice rest := by
  simp [slice, List.take_length_add_append, List.drop_length_add_append]

/-- Behind a separator there are the runs of the rest. -/
theorem isRun_shift_iff (hn : sep n) (hsize : n < size) :
    (r.shift (n + 1)).IsRun sep size ↔
      r.IsRun (fun i => sep (n + 1 + i)) (size - (n + 1)) := by
  constructor
  · rintro ⟨hne, hwithin, hinside, hleft, hright⟩
    simp only [shift_start, shift_stop] at hne hwithin hinside hleft hright
    refine ⟨by omega, by omega, fun i hi hi' => ?_, fun i hi => ?_, fun hlt => ?_⟩
    · exact hinside _ (by omega) (by omega)
    · exact hleft _ (by omega)
    · exact hright (by omega)
  · rintro ⟨hne, hwithin, hinside, hleft, hright⟩
    constructor <;> simp only [shift_start, shift_stop]
    · omega
    · omega
    · intro i hi hi'
      obtain ⟨j, rfl⟩ := Nat.exists_eq_add_of_le (show n + 1 ≤ i by omega)
      exact hinside j (by omega) (by omega)
    · intro i hi
      by_cases hstart : r.start = 0
      · obtain rfl : i = n := by omega
        exact hn
      · obtain ⟨j, rfl⟩ := Nat.exists_eq_add_of_le (show n + 1 ≤ i by omega)
        exact hleft j (by omega)
    · intro hlt
      exact hright (by omega)

/-- A run from which no separator can be seen on the left starts at the front. -/
theorem IsRun.start_eq_zero (h : r.IsRun sep size) (hfront : ∀ i < r.start, ¬ sep i) :
    r.start = 0 := by
  by_contra hpos
  exact hfront (r.start - 1) (by omega) (h.left _ (by omega))

/-- **The runs in front of a first separator and behind it.** What is in front is a run, unless
there is nothing. -/
theorem isRun_iff_of_first (hfront : ∀ i < n, ¬ sep i) (hn : sep n) (hsize : n < size) :
    r.IsRun sep size ↔ (0 < n ∧ r = ⟨0, n⟩) ∨
      ∃ r' : Span, r'.IsRun (fun i => sep (n + 1 + i)) (size - (n + 1)) ∧ r = r'.shift (n + 1) := by
  constructor
  · intro h
    have hne := h.nonempty
    by_cases hstart : r.start ≤ n
    · have hzero : r.start = 0 := h.start_eq_zero fun i hi => hfront i (by omega)
      have hle : r.stop ≤ n := by
        by_contra hlt
        exact h.inside n hstart (by omega) hn
      have hge : n ≤ r.stop := by
        by_contra hlt
        exact hfront r.stop (by omega) (h.right (by omega))
      exact .inl ⟨by omega, by cases r; simp_all; omega⟩
    · have hr : r = (Span.mk (r.start - (n + 1)) (r.stop - (n + 1))).shift (n + 1) := by
        cases r
        simp only [shift, mk.injEq] at *
        omega
      rw [hr] at h
      exact .inr ⟨_, (isRun_shift_iff hn hsize).1 h, hr⟩
  · rintro (⟨hpos, rfl⟩ | ⟨r', hr', rfl⟩)
    · exact ⟨hpos, Nat.le_of_lt hsize, fun i _ hi => hfront i hi, nofun, fun _ => hn⟩
    · exact (isRun_shift_iff hn hsize).2 hr'

/-- Without a separator everything is one run, unless there is nothing. -/
theorem isRun_iff_of_none (hnone : ∀ i < size, ¬ sep i) :
    r.IsRun sep size ↔ 0 < size ∧ r = ⟨0, size⟩ := by
  constructor
  · intro h
    have hne := h.nonempty
    have hwithin := h.within
    have hzero : r.start = 0 := h.start_eq_zero fun i hi => hnone i (by omega)
    have hstop : r.stop = size := by
      by_contra hlt
      exact hnone r.stop (by omega) (h.right (by omega))
    exact ⟨by omega, by cases r; simp_all⟩
  · rintro ⟨hpos, rfl⟩
    exact ⟨hpos, Nat.le_refl size, fun i _ hi => hnone i hi, nofun, fun h => absurd h (by simp)⟩

end Span

/-- All maximal runs and nothing else, in order. -/
structure Runs (sep : Nat → Prop) (size : Nat) (rs : List Span) : Prop where
  mem_iff : ∀ r, r ∈ rs ↔ r.IsRun sep size
  sorted : rs.Pairwise fun r r' => r.stop < r'.start

/-- The span of `n` positions from the first one on, unless it is empty. -/
def Span.first (n : Nat) : List Span :=
  if 0 < n then [⟨0, n⟩] else []

theorem Span.mem_first {n : Nat} {r : Span} : r ∈ first n ↔ 0 < n ∧ r = ⟨0, n⟩ := by
  unfold first
  split <;> simp_all

theorem Span.map_slice_first {α : Type} (front rest : List α) :
    (first front.length).map (·.slice (front ++ rest)) = [front].filter (!·.isEmpty) := by
  cases front <;> simp [first, slice]

section

variable {sep : Nat → Prop} {size n : Nat} {rs : List Span}

theorem Runs.of_none (hnone : ∀ i < size, ¬ sep i) : Runs sep size (Span.first size) where
  mem_iff r := by rw [Span.mem_first, Span.isRun_iff_of_none hnone]
  sorted := by
    unfold Span.first
    split <;> simp

theorem Runs.of_first (hfront : ∀ i < n, ¬ sep i) (hn : sep n) (hsize : n < size)
    (h : Runs (fun i => sep (n + 1 + i)) (size - (n + 1)) rs) :
    Runs sep size (Span.first n ++ rs.map (·.shift (n + 1))) where
  mem_iff r := by
    rw [Span.isRun_iff_of_first hfront hn hsize, List.mem_append, Span.mem_first, List.mem_map]
    simp only [h.mem_iff, eq_comm]
  sorted := by
    refine List.pairwise_append.2 ⟨?_, ?_, ?_⟩
    · unfold Span.first
      split <;> simp
    · refine List.pairwise_map.2 (h.sorted.imp fun hlt => ?_)
      simp only [Span.shift_start, Span.shift_stop]
      omega
    · intro r hr r' hr'
      obtain ⟨-, rfl⟩ := Span.mem_first.1 hr
      obtain ⟨r', -, rfl⟩ := List.mem_map.1 hr'
      simp only [Span.shift_start]
      omega

end

/-- **A list that is split at separators falls into its maximal runs.** -/
theorem exists_runs_splitOnP {α : Type} (p : α → Bool) (xs : List α) :
    ∃ rs, Runs (fun i => ∃ x, xs[i]? = some x ∧ p x = true) xs.length rs ∧
      (xs.splitOnP p).filter (!·.isEmpty) = rs.map (·.slice xs) := by
  induction hlength : xs.length using Nat.strongRecOn generalizing xs with
  | ind size ih =>
    subst hlength
    cases hfind : xs.find? p with
    | none =>
      have hnone : ∀ x ∈ xs, p x = false := by simpa using List.find?_eq_none.1 hfind
      refine ⟨Span.first xs.length, .of_none ?_, ?_⟩
      · rintro i - ⟨x, hx, hpx⟩
        cases (hnone x (List.mem_of_getElem? hx)).symm.trans hpx
      · have hslice := Span.map_slice_first xs []
        rw [List.append_nil] at hslice
        rw [List.splitOnP_eq_singleton hnone, hslice]
    | some a =>
      obtain ⟨ha, front, rest, rfl, hfront⟩ := List.find?_eq_some_iff_append.1 hfind
      obtain ⟨rs, hrs, hwords⟩ := ih rest.length (by simp; omega) rest rfl
      have hsplit : front ++ a :: rest = (front ++ [a]) ++ rest := by simp
      have hlast : (front ++ a :: rest)[front.length]? = some a := by simp
      have hrest (i : Nat) : (front ++ a :: rest)[front.length + 1 + i]? = rest[i]? := by
        rw [hsplit, List.getElem?_append_right (by simp)]
        simp
      refine ⟨Span.first front.length ++ rs.map (·.shift (front.length + 1)),
        .of_first ?_ ⟨a, hlast, ha⟩ (by simp) ?_, ?_⟩
      · rintro i hi ⟨x, hx, hpx⟩
        rw [List.getElem?_append_left hi] at hx
        simpa [hpx] using hfront x (List.mem_of_getElem? hx)
      · have hsize : (front ++ a :: rest).length - (front.length + 1) = rest.length := by
          simp
          omega
        simpa only [hrest, hsize] using hrs
      · have hshift (r : Span) : (r.shift (front.length + 1)).slice (front ++ a :: rest) =
            r.slice rest := by
          have hslice := r.slice_shift (front ++ [a]) rest
          simpa using hslice
        have hfront' : front.splitOnP p = [front] :=
          List.splitOnP_eq_singleton (by simpa using hfront)
        rw [List.splitOnP_append_cons _ _ ha, List.filter_append, hfront', hwords,
          List.map_append, Span.map_slice_first, List.map_map]
        congr 1
        exact List.map_congr_left fun r _ => (hshift r).symm

/-! ## Quoted positions -/

namespace Quoting

/-- True if there is a quote at the position which opens or closes a region: no backslash is just
before it, and at the first position the carried flag does not stand for one. -/
def togglesAt (q : Quoting) (text : List Char) : Nat → Bool
  | 0 => text[0]? == some '"' && !q.escaped
  | i + 1 => text[i + 1]? == some '"' && text[i]? != some '\\'

/-- Whether a region is open behind the first `n` characters: as before the text, flipped once for
each quote among them that toggles. -/
def quotedBehind (q : Quoting) (text : List Char) (n : Nat) : Bool :=
  not^[(List.range n).countP (q.togglesAt text)] q.quoted

/-- There is a blank at the position, and no region is open. -/
def SeparatorAt (q : Quoting) (text : List Char) (i : Nat) : Prop :=
  ∃ c, text[i]? = some c ∧ Text.isBlank c = true ∧ q.quotedBehind text (i + 1) = false

theorem quotedBehind_succ (q : Quoting) (text : List Char) (n : Nat) :
    q.quotedBehind text (n + 1) = (q.quotedBehind text n ^^ q.togglesAt text n) := by
  simp only [quotedBehind, List.range_succ, List.countP_append, List.countP_singleton]
  cases q.togglesAt text n
  · simp
  · simp [Function.iterate_succ_apply']

/-- **The flag for quotes is the number of toggling quotes.** -/
theorem quoted_after_take (q : Quoting) {text : List Char} {n : Nat} (hn : n ≤ text.length) :
    (q.after (text.take n)).quoted = q.quotedBehind text n := by
  induction n with
  | zero => rfl
  | succ n ih =>
    have hlt : n < text.length := hn
    have htoggles : (text[n] == '"' && !(q.after (text.take n)).escaped) = q.togglesAt text n := by
      cases n with
      | zero => simp [togglesAt, List.getElem?_eq_getElem hlt]
      | succ m =>
        have hne : text.take (m + 1) ≠ [] := by
          simp
          rintro rfl
          simp at hlt
        rw [escaped_after hne, togglesAt, List.getElem?_eq_getElem hlt, List.getLast?_take]
        simp [List.getElem?_eq_getElem (Nat.lt_of_succ_lt hlt), bne]
    rw [List.take_succ_eq_append_getElem hlt, after_append, quotedBehind_succ, ← ih (by omega),
      ← htoggles]
    rfl

theorem getElem?_mark (q : Quoting) (text : List Char) (i : Nat) :
    (q.mark text)[i]? =
      text[i]?.map fun c => (c, (q.after (text.take (i + 1))).separates c) := by
  induction text generalizing q i with
  | nil => rfl
  | cons c cs ih =>
    cases i with
    | zero => simp [mark]
    | succ i => simp [mark, ih]

/-- **Separators are the marked characters.** -/
theorem separatorAt_iff {q : Quoting} {text : List Char} {i : Nat} :
    q.SeparatorAt text i ↔ ∃ m, (q.mark text)[i]? = some m ∧ m.2 = true := by
  rw [getElem?_mark]
  unfold SeparatorAt
  by_cases hi : i < text.length
  · have hquoted := q.quoted_after_take (show i + 1 ≤ text.length from hi)
    simp [List.getElem?_eq_getElem hi, separates, hquoted, and_comm]
  · simp [List.getElem?_eq_none (Nat.le_of_not_lt hi)]

/-- **The words of a text are its maximal runs.** -/
theorem exists_runs_words (q : Quoting) (text : List Char) :
    ∃ rs, Runs (q.SeparatorAt text) text.length rs ∧ q.words text = rs.map (·.slice text) := by
  obtain ⟨rs, hrs, hsplit⟩ := exists_runs_splitOnP Prod.snd (q.mark text)
  have hlength : (q.mark text).length = text.length := by
    rw [← List.length_map Prod.fst, map_fst_mark]
  refine ⟨rs, ?_, ?_⟩
  · have hsep : q.SeparatorAt text = fun i => ∃ m, (q.mark text)[i]? = some m ∧ m.2 = true :=
      funext fun i => propext separatorAt_iff
    rw [hsep, ← hlength]
    exact hrs
  · rw [words, hsplit, List.map_map]
    refine List.map_congr_left fun r _ => ?_
    rw [Function.comp_apply, ← Span.slice_map, map_fst_mark]

end Quoting

/-! ## Comments -/

/-- The text is the line up to its first comment marker, or all of a line without a marker. -/
inductive UpToComment : List Char → List Char → Prop
  | uncut {line : List Char} (h : ¬ commentMarker.toList <:+: line) : UpToComment line line
  | cut {text rest : List Char}
      (hfirst : ∀ before behind, text ++ commentMarker.toList ++ rest =
        before ++ commentMarker.toList ++ behind → text.length ≤ before.length) :
      UpToComment text (text ++ commentMarker.toList ++ rest)

namespace Session

theorem upToComment_code (line : List Char) : UpToComment (code line) line := by
  induction line with
  | nil => exact .uncut (by decide)
  | cons c cs ih =>
    by_cases hmarker : commentMarker.toList <+: c :: cs
    · obtain ⟨rest, hrest⟩ := hmarker
      rw [code_of_marker ⟨rest, hrest⟩, ← hrest]
      exact .cut fun before _ _ => Nat.zero_le _
    · rw [code_of_not_marker hmarker]
      generalize code cs = text at ih
      cases ih with
      | uncut h =>
        refine .uncut ?_
        rw [List.infix_cons_iff, not_or]
        exact ⟨hmarker, h⟩
      | @cut rest hfirst =>
        refine .cut fun before behind hsplit => ?_
        cases before with
        | nil => exact absurd ⟨behind, hsplit.symm⟩ hmarker
        | cons d before =>
          have htail := hfirst before behind (List.cons.inj hsplit).2
          simpa using htail

/-- There is no comment in the text in front of the first one. -/
theorem not_infix_of_upToComment {text line : List Char} (h : UpToComment text line) :
    ¬ commentMarker.toList <:+: text := by
  cases h with
  | uncut hnone => exact hnone
  | @cut rest hfirst =>
    rintro ⟨before, behind, rfl⟩
    have hle := hfirst before (behind ++ (commentMarker.toList ++ rest)) (by simp)
    simp only [List.length_append, toList_commentMarker, List.length_cons] at hle
    omega

/-- A text without a comment is not cut. -/
theorem code_of_not_infix {text : List Char} (h : ¬ commentMarker.toList <:+: text) :
    code text = text := by
  have hcode : code (text ++ []) = text ++ code [] := code_append h nofun
  simpa using hcode

/-- **Only one text is in front of the first comment.** -/
theorem code_eq_of_upToComment {text line : List Char} (h : UpToComment text line) :
    code line = text := by
  have hnone := not_infix_of_upToComment h
  cases h with
  | uncut => exact code_of_not_infix hnone
  | @cut rest hfirst =>
    have hlast : text.getLast? = some '/' →
        (commentMarker.toList ++ rest).head? ≠ some '/' := by
      intro hslash
      obtain ⟨front, rfl⟩ := List.getLast?_eq_some_iff.1 hslash
      have hle := hfirst front ('/' :: rest) (by simp [toList_commentMarker])
      simp only [List.length_append, List.length_singleton] at hle
      omega
    have hmarker : code (commentMarker.toList ++ rest) = [] :=
      code_of_marker (List.prefix_append _ _)
    rw [List.append_assoc, code_append hnone hlast, hmarker, List.append_nil]

/-- **The words of a line are its runs.** The text that counts is the line up to its first comment
marker. Its words are the maximal runs of positions that are no separators, all of them and in their
order, and are found in the session's row. Behind the line, the flags are those at the end of the
text, and the row is the next one. What stands from the marker on makes no difference. -/
theorem lineWords_eq_runs (s : Session) (line : List Char) :
    let q := s.quoting
    let text := code line
    UpToComment text line ∧
    (∃ rs, Runs (q.SeparatorAt text) text.length rs ∧
      s.lineWords line = rs.map fun r => String.ofList (r.slice text)) ∧
    s.lineTokens line = (s.lineWords line).map (fun raw => ⟨⟨s.file, s.row⟩, .ofText raw⟩) ∧
    s.afterLine line =
      ⟨s.file, ⟨q.quotedBehind text text.length,
        if text = [] then q.escaped else text.getLast? == some '\\'⟩, s.row + 1⟩ ∧
    ∀ line', UpToComment text line' →
      s.lineWords line' = s.lineWords line ∧ s.afterLine line' = s.afterLine line := by
  intro q text
  obtain ⟨rs, hrs, hwords⟩ := q.exists_runs_words text
  refine ⟨upToComment_code line, ⟨rs, hrs, ?_⟩, rfl, ?_, fun line' hline' => ?_⟩
  · have hline : s.lineWords line = (q.words text).map String.ofList := rfl
    rw [hline, hwords, List.map_map]
    rfl
  · have hquoted := q.quoted_after_take (Nat.le_refl text.length)
    rw [List.take_length] at hquoted
    have hescaped : (q.after text).escaped =
        if text = [] then q.escaped else text.getLast? == some '\\' := by
      by_cases hnil : text = []
      · simp [hnil]
      · rw [Quoting.escaped_after hnil, if_neg hnil]
    rw [← hquoted, ← hescaped]
    rfl
  · have hcode : code line' = code line := code_eq_of_upToComment hline'
    simp [lineWords, afterLine, hcode]

/-- A line that goes on with a quoted word. The quote in front is escaped by a backslash on the line
before, and the one behind the `b` closes the region. -/
theorem lineWords_eq_runs_carried :
    let s : Session := ⟨"a", ⟨true, true⟩, 3⟩
    let line := "\" b\"\tc \\// \"d".toList
    let line' := "\" b\"\tc \\// e\\".toList
    UpToComment "\" b\"\tc \\".toList line' ∧
    s.lineWords line = ["\" b\"", "c", "\\"] ∧ s.afterLine line = ⟨"a", ⟨false, true⟩, 4⟩ ∧
    s.lineWords line' = s.lineWords line ∧ s.afterLine line' = s.afterLine line := by
  intro s line line'
  have hcode : code line' = code line := by decide +kernel
  have htext : code line' = "\" b\"\tc \\".toList := by decide +kernel
  have hwords : s.lineWords line = ["\" b\"", "c", "\\"] := by decide +kernel
  have hafter : s.afterLine line = ⟨"a", ⟨false, true⟩, 4⟩ := by decide +kernel
  have hline' : UpToComment (code line) line' := hcode ▸ upToComment_code line'
  exact ⟨htext ▸ upToComment_code line', hwords, hafter,
    (lineWords_eq_runs s line).2.2.2.2 line' hline'⟩

end Session

end StackLang
