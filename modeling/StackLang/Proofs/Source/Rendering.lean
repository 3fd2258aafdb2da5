import Mathlib.Data.List.Infix
import StackLang.Proofs.Source.Line
import StackLang.Proofs.Text.Lines
import StackLang.Proofs.Word

/-!
# Reading what was rendered

Words that are written with blanks between them (`Rendering`) are read as these words, each in the
row that the newlines before it give, if every word is `Safe`: it has no comment and no newline,
closes what it opens, and neither holds a separator nor escapes what follows.

**Theorem (`tokenize_rendering`).** The tokens of a rendering are its words, whatever the blanks
are, and no region is open at the end. Spelled literals are safe, apart from strings with a quote, a
comment, a newline or a final backslash in them.

Two lemmas carry the proof, because a session with cleared flags that has read a blank or a safe
word has cleared flags again. Blanks move it down by their newlines (`Session.reading_gap`), and a
safe word in front of a blank is one token (`Session.reading_safe`).
-/

namespace StackLang

/-- A text that is read as one word wherever it stands between blanks. -/
structure Safe (raw : List Char) : Prop where
  ne_nil : raw ≠ []
  /-- no comment starts in it -/
  uncommented : ¬ commentMarker.toList <:+: raw
  /-- it stays on one line -/
  oneLine : '\n' ∉ raw
  /-- it does not escape what follows -/
  getLast?_ne : raw.getLast? ≠ some '\\'
  /-- read from the cleared flags, none of its characters is a separator -/
  unmarked : ∀ m ∈ Quoting.start.mark raw, m.2 = false
  /-- it closes every region that it opens -/
  closed : (Quoting.start.after raw).quoted = false

instance : DecidablePred Safe := fun raw =>
  decidable_of_iff
    (raw ≠ [] ∧ ¬ commentMarker.toList <:+: raw ∧ '\n' ∉ raw ∧ raw.getLast? ≠ some '\\' ∧
      (Quoting.start.mark raw).all (·.2 == false) = true ∧
      (Quoting.start.after raw).quoted = false)
    ⟨fun ⟨h₁, h₂, h₃, h₄, h₅, h₆⟩ => ⟨h₁, h₂, h₃, h₄, by simpa using h₅, h₆⟩,
      fun ⟨h₁, h₂, h₃, h₄, h₅, h₆⟩ => ⟨h₁, h₂, h₃, h₄, by simpa using h₅, h₆⟩⟩

/-- Nothing, or a text that starts with a blank. -/
def StartsBlank (text : List Char) : Prop :=
  ∀ c ∈ text.head?, Text.isBlank c = true

theorem StartsBlank.front {text front : List Char} (h : StartsBlank text)
    (hfront : front <+: text) : StartsBlank front := by
  obtain ⟨rest, rfl⟩ := hfront
  cases front with
  | nil => exact nofun
  | cons c cs => exact h

namespace Safe

variable {raw : List Char}

/-- **A safe text leaves the flags cleared.** -/
theorem after_eq (h : Safe raw) : Quoting.start.after raw = .start := by
  have hescaped : (Quoting.start.after raw).escaped = false := by
    rw [Quoting.escaped_after h.ne_nil]
    simpa using h.getLast?_ne
  have hclosed := h.closed
  cases hafter : Quoting.start.after raw with
  | mk quoted escaped =>
    rw [hafter] at hescaped hclosed
    subst hescaped hclosed
    rfl

/-- A safe text ends with no blank, because that would be a separator. -/
theorem not_isBlank_getLast (h : Safe raw) : ∀ c ∈ raw.getLast?, Text.isBlank c = false := by
  obtain ⟨front, c, rfl⟩ := (List.eq_nil_or_concat' raw).resolve_left h.ne_nil
  have hmark : ((Quoting.start.after front).next c).separates c = false :=
    h.unmarked (c, ((Quoting.start.after front).next c).separates c)
      (by simp [Quoting.mark_append, Quoting.mark])
  have hclosed := h.closed
  rw [Quoting.after_append] at hclosed
  have hquoted : ((Quoting.start.after front).next c).quoted = false := hclosed
  simpa [Quoting.separates, hquoted] using hmark

/-- **A safe text is the first word** of the text that starts with it. -/
theorem words_append (h : Safe raw) {rest : List Char} (hrest : StartsBlank rest) :
    Quoting.start.words (raw ++ rest) = raw :: Quoting.start.words rest := by
  have hraw := Quoting.words_of_unmarked h.ne_nil h.unmarked
  cases rest with
  | nil => simp [hraw]
  | cons c cs =>
    obtain ⟨hnext, hsep⟩ := Quoting.next_of_isBlank (q := .start) rfl (hrest c rfl)
    have hsep' : ((Quoting.start.after raw).next c).separates c = true := by
      rw [h.after_eq]
      exact hsep
    rw [Quoting.words_append_cons raw cs hsep', h.after_eq, hnext, hraw,
      Quoting.words_cons_of_isBlank rfl (hrest c rfl)]
    rfl

end Safe

namespace Session

/-- What a session makes of lines: their tokens, and the flags at the end. -/
def reading (s : Session) (ls : List (List Char)) : List Token × Quoting :=
  (s.tokensOfLines ls, (ls.foldl afterLine s).quoting)

theorem reading_cons (s : Session) (line : List Char) (ls : List (List Char)) :
    s.reading (line :: ls) =
      (s.lineTokens line ++ ((s.afterLine line).reading ls).1,
        ((s.afterLine line).reading ls).2) := rfl

/-- **What is written in front of a text is read before it**, if that makes no difference to the
rest of the line. -/
theorem reading_append {s : Session} {front text : List Char} (h : '\n' ∉ front)
    (hne : front ≠ []) {ts : List Token}
    (hline : ∀ line, line <+: text →
      s.lineTokens (front ++ line) = ts ++ s.lineTokens line ∧
        s.afterLine (front ++ line) = s.afterLine line)
    (hreturn : s.lineTokens (Text.dropReturn front) = s.lineTokens front ∧
      s.afterLine (Text.dropReturn front) = s.afterLine front) :
    s.reading (Text.lines (front ++ text)) =
      (ts ++ (s.reading (Text.lines text)).1, (s.reading (Text.lines text)).2) := by
  obtain ⟨rfl, hlines⟩ | ⟨line, rest, hle, hlines, hfront | ⟨rfl, hfront⟩⟩ :=
    Text.lines_append h hne text
  · obtain ⟨htokens, hafter⟩ := hline [] List.prefix_rfl
    simp only [List.append_nil] at htokens hafter ⊢
    rw [hlines, reading_cons, htokens, hafter]
    simp [reading, tokensOfLines, Text.lines, Text.linesOfPieces]
  · obtain ⟨htokens, hafter⟩ := hline line hle
    rw [hlines, hfront, reading_cons, reading_cons, htokens, hafter, List.append_assoc]
  · obtain ⟨htokens, hafter⟩ := hline [] List.nil_prefix
    rw [List.append_nil] at htokens hafter
    rw [hlines, hfront, reading_cons, reading_cons, hreturn.1, hreturn.2, htokens, hafter,
      List.append_assoc]

/-- The session some rows further down. -/
def down (s : Session) (rows : Nat) : Session :=
  { s with row := s.row + rows }

@[simp] theorem down_zero (s : Session) : s.down 0 = s := rfl

@[simp] theorem down_down (s : Session) (m n : Nat) : (s.down m).down n = s.down (m + n) := by
  simp [down, Nat.add_assoc]

theorem reading_newline (s : Session) (text : List Char) :
    s.reading (Text.lines ('\n' :: text)) = (s.down 1).reading (Text.lines text) := by
  have hlines : Text.lines ('\n' :: text) = [] :: Text.lines text :=
    Text.lines_append_newline List.not_mem_nil text
  rw [hlines, reading_cons, lineTokens_nil, afterLine_nil, List.nil_append]
  rfl

/-- **A blank is skipped**, and a newline ends the row. -/
theorem reading_blank {s : Session} (hs : s.quoting = .start) {c : Char}
    (hc : Text.isBlank c = true) (text : List Char) :
    s.reading (Text.lines (c :: text)) = (s.down ([c].count '\n')).reading (Text.lines text) := by
  by_cases hnl : c = '\n'
  · subst hnl
    exact reading_newline s text
  · have hslash : c ≠ '/' := Text.ne_of_isBlank hc (by decide)
    have hline (line : List Char) : s.lineTokens (c :: line) = s.lineTokens line ∧
        s.afterLine (c :: line) = s.afterLine line := by
      obtain ⟨hnext, -⟩ := Quoting.next_of_isBlank (q := .start) rfl hc
      have hwords := Quoting.words_cons_of_isBlank (q := .start) rfl hc (code line)
      simp [lineTokens, lineWords, afterLine, code_cons hslash, hs, hwords, hnext]
    have hreturn : Text.dropReturn [c] = [] ∨ Text.dropReturn [c] = [c] := by
      unfold Text.dropReturn
      split
      · exact .inl rfl
      · exact .inr rfl
    have hdrop : s.lineTokens (Text.dropReturn [c]) = s.lineTokens [c] ∧
        s.afterLine (Text.dropReturn [c]) = s.afterLine [c] := by
      rcases hreturn with he | he <;> rw [he]
      · exact ⟨(hline []).1.symm, (hline []).2.symm⟩
      · exact ⟨rfl, rfl⟩
    have hfront : ∀ line, line <+: text → s.lineTokens ([c] ++ line) = [] ++ s.lineTokens line ∧
        s.afterLine ([c] ++ line) = s.afterLine line := fun line _ => hline line
    rw [List.count_singleton, if_neg (by simpa using hnl)]
    exact reading_append (by simpa using Ne.symm hnl) (List.cons_ne_nil c []) hfront hdrop

/-- **Blanks are skipped**, and the newlines among them are counted. -/
theorem reading_gap {s : Session} (hs : s.quoting = .start) {gap : List Char}
    (h : ∀ c ∈ gap, Text.isBlank c = true) (text : List Char) :
    s.reading (Text.lines (gap ++ text)) =
      (s.down (gap.count '\n')).reading (Text.lines text) := by
  induction gap generalizing s with
  | nil => rfl
  | cons c gap ih =>
    obtain ⟨hc, hgap⟩ := List.forall_mem_cons.1 h
    have hs' : (s.down ([c].count '\n')).quoting = .start := hs
    rw [List.cons_append, reading_blank hs hc, ih hs' hgap, down_down, ← List.count_append]
    rfl

/-- **A safe text is read as one word**, in front of nothing or a blank. -/
theorem reading_safe {s : Session} (hs : s.quoting = .start) {raw : List Char} (h : Safe raw)
    {text : List Char} (htext : StartsBlank text) :
    s.reading (Text.lines (raw ++ text)) =
      (⟨⟨s.file, s.row⟩, .ofText (.ofList raw)⟩ :: (s.reading (Text.lines text)).1,
        (s.reading (Text.lines text)).2) := by
  have hreturn : Text.dropReturn raw = raw :=
    if_neg fun hlast => absurd (h.not_isBlank_getLast '\r' hlast) (by decide)
  have hline : ∀ line, line <+: text →
      s.lineTokens (raw ++ line) = [⟨⟨s.file, s.row⟩, .ofText (.ofList raw)⟩] ++ s.lineTokens line ∧
        s.afterLine (raw ++ line) = s.afterLine line := by
    intro line hle
    have hblank : StartsBlank line := htext.front hle
    have hslash : line.head? ≠ some '/' := fun he => absurd (hblank '/' he) (by decide)
    have hcode : code (raw ++ line) = raw ++ code line :=
      code_append h.uncommented fun _ => hslash
    have hrest : StartsBlank (code line) := hblank.front (prefix_code line)
    simp [lineTokens, lineWords, afterLine, hcode, hs, h.words_append hrest, Quoting.after_append,
      h.after_eq]
  exact reading_append h.oneLine h.ne_nil hline (by rw [hreturn]; exact ⟨rfl, rfl⟩)

end Session

/-! ## Renderings -/

/-- A safe word with the blanks in front of it. -/
structure Piece where
  gap : List Char
  raw : List Char
  blank : ∀ c ∈ gap, Text.isBlank c = true
  safe : Safe raw

def Piece.text (p : Piece) : List Char :=
  p.gap ++ p.raw

/-- Safe words with blanks between them, and perhaps in front of them and behind them. -/
structure Rendering where
  pieces : List Piece
  /-- the blanks behind the last word -/
  trail : List Char
  blank : ∀ c ∈ trail, Text.isBlank c = true
  /-- the words do not touch -/
  apart : ∀ p ∈ pieces.tail, p.gap ≠ []

namespace Rendering

def text (r : Rendering) : List Char :=
  r.pieces.flatMap Piece.text ++ r.trail

/-- Every word with the number of newlines before it as its row. -/
def tokens (r : Rendering) (file : String) : List Token :=
  r.pieces.mapIdx fun i p =>
    ⟨⟨file, ((r.pieces.take i).flatMap Piece.text ++ p.gap).count '\n'⟩, .ofText (.ofList p.raw)⟩

theorem startsBlank {ps : List Piece} (h : ∀ p ∈ ps, p.gap ≠ []) {trail : List Char}
    (htrail : ∀ c ∈ trail, Text.isBlank c = true) :
    StartsBlank (ps.flatMap Piece.text ++ trail) := by
  cases ps with
  | nil => exact fun c hc => htrail c (List.mem_of_head? hc)
  | cons p ps =>
    have hp : p.gap ≠ [] := h p List.mem_cons_self
    cases hgap : p.gap with
    | nil => exact absurd hgap hp
    | cons d ds =>
      intro c hc
      have hcd : d = c := by simpa [Piece.text, hgap] using hc
      exact p.blank c (by simp [hgap, hcd])

/-- **The words of a rendering are read**, from any row on. -/
theorem reading_text (r : Rendering) {s : Session} (hs : s.quoting = .start) :
    s.reading (Text.lines r.text) =
      (r.pieces.mapIdx fun i p =>
        ⟨⟨s.file, s.row + ((r.pieces.take i).flatMap Piece.text ++ p.gap).count '\n'⟩,
          .ofText (.ofList p.raw)⟩, .start) := by
  obtain ⟨ps, trail, htrail, hapart⟩ := r
  simp only [text]
  induction ps generalizing s with
  | nil =>
    have hread := Session.reading_gap hs htrail []
    rw [List.append_nil] at hread
    rw [List.flatMap_nil, List.nil_append, hread]
    exact congrArg (Prod.mk []) hs
  | cons p ps ih =>
    have hps : ∀ p ∈ ps, p.gap ≠ [] := hapart
    have hgap := Session.reading_gap hs p.blank (p.raw ++ (ps.flatMap Piece.text ++ trail))
    have hraw := Session.reading_safe (s := s.down (p.gap.count '\n')) hs p.safe
      (startsBlank hps htrail)
    have hrest := ih (s := s.down (p.gap.count '\n')) hs fun p hp =>
      hps p (List.mem_of_mem_tail hp)
    have htext : (p :: ps).flatMap Piece.text ++ trail =
        p.gap ++ (p.raw ++ (ps.flatMap Piece.text ++ trail)) := by
      simp [Piece.text]
    have hnl : p.raw.count '\n' = 0 := List.count_eq_zero.2 p.safe.oneLine
    rw [htext, hgap, hraw, hrest, List.mapIdx_cons]
    simp [Session.down, Piece.text, hnl, Nat.add_assoc]

end Rendering

/-! ## Literals -/

namespace Safe

/-- An integer is safe. -/
theorem intLiteral (v : Int64) : Safe (Word.intLiteral v).text.toList := by
  have htext : (Word.intLiteral v).text.toList = Decimal.text v.toInt := String.toList_ofList
  have hblank : ∀ c ∈ Decimal.text v.toInt, Text.isBlank c = false := by
    intro c hc
    rcases Decimal.of_mem_text hc with h | rfl
    · exact Text.isBlank_of_isDigit h
    · decide
  rw [htext]
  exact {
    ne_nil := by
      unfold Decimal.text
      split
      · exact List.cons_ne_nil _ _
      · exact Decimal.digits_ne_nil _
    uncommented := fun h =>
      Decimal.notMem_text (c := '/') (by decide) (by decide) _ (h.subset (by decide))
    oneLine := Decimal.notMem_text (by decide) (by decide) _
    getLast?_ne := fun h =>
      Decimal.notMem_text (c := '\\') (by decide) (by decide) _ (List.mem_of_getLast? h)
    unmarked := Quoting.unmarked_of_forall_not_isBlank hblank
    closed := Quoting.quoted_after (Decimal.notMem_text (by decide) (by decide) _) }

/-- A string is safe if it has no quote, no comment and no newline in it and does not end in a
backslash. -/
theorem stringLiteral {s : String} (hquote : '"' ∉ s.toList)
    (hcomment : ¬ commentMarker.toList <:+: s.toList) (hnewline : '\n' ∉ s.toList)
    (hlast : s.toList.getLast? ≠ some '\\') : Safe (Word.stringLiteral s).text.toList := by
  have htext : (Word.stringLiteral s).text.toList = '"' :: (s.toList ++ ['"']) := by
    simp [Word.text, String.toList_append]
  generalize s.toList = cs at *
  have hinside : (Quoting.after ⟨true, false⟩ cs).quoted = true := Quoting.quoted_after hquote
  have hescaped : (Quoting.after ⟨true, false⟩ cs).escaped = false := by
    cases cs with
    | nil => rfl
    | cons c cs =>
      rw [Quoting.escaped_after (List.cons_ne_nil c cs)]
      simpa using hlast
  have hunmarked : ∀ m ∈ Quoting.mark ⟨true, false⟩ cs, m.2 = false :=
    Quoting.unmarked_of_quoted rfl hquote
  rw [htext]
  exact {
    ne_nil := List.cons_ne_nil _ _
    uncommented := by
      rw [List.infix_cons_iff, List.infix_concat_iff, not_or, not_or]
      refine ⟨fun h => ?_, fun h => ?_, hcomment⟩
      · exact absurd (List.cons_prefix_cons.1 h).1 (by decide)
      · obtain ⟨front, hfront⟩ := h
        have hlast := congrArg List.getLast? hfront
        rw [List.getLast?_append_of_ne_nil _ (by decide), List.getLast?_concat] at hlast
        exact absurd hlast (by decide)
    oneLine := by simp [hnewline]
    getLast?_ne := by
      rw [← List.cons_append, List.getLast?_concat]
      decide
    unmarked := by
      rw [Quoting.mark, Quoting.mark_append]
      refine List.forall_mem_cons.2 ⟨rfl, List.forall_mem_append.2 ⟨hunmarked, ?_⟩⟩
      refine List.forall_mem_singleton.2 ?_
      simp [Quoting.separates, show Text.isBlank '"' = false by decide]
    closed := by
      simp [Quoting.after_append, Quoting.next, Quoting.start, hinside, hescaped] }

end Safe

/-- **Reading undoes rendering.** The tokens of a rendering are its words in the rows in which they
were written, and no region is open at the end. Integers are safe, and so are strings without a
quote, a comment, a newline or a final backslash in them; they are read as the same literals. -/
theorem tokenize_rendering :
    (∀ (r : Rendering) (file : String),
      tokenize file (.ofList r.text) = r.tokens file ∧
        ((Session.start file).after (.ofList r.text)).quoting.quoted = false) ∧
    (∀ v : Int64, Safe (Word.intLiteral v).text.toList ∧
      Word.ofText (Word.intLiteral v).text = .intLiteral v) ∧
    (∀ s : String, '"' ∉ s.toList → ¬ commentMarker.toList <:+: s.toList → '\n' ∉ s.toList →
      s.toList.getLast? ≠ some '\\' → Safe (Word.stringLiteral s).text.toList ∧
        Word.ofText (Word.stringLiteral s).text = .stringLiteral s) := by
  refine ⟨fun r file => ?_, fun v => ⟨Safe.intLiteral v, Word.ofText_text_intLiteral v⟩,
    fun s hquote hcomment hnewline hlast =>
      ⟨Safe.stringLiteral hquote hcomment hnewline hlast, Word.ofText_text_stringLiteral s⟩⟩
  have hread := r.reading_text (s := .start file) rfl
  have htokens := congrArg Prod.fst hread
  have hquoting := congrArg Prod.snd hread
  simp only [Session.reading] at htokens hquoting
  rw [tokenize, Session.tokens, Session.after, String.toList_ofList, htokens, hquoting]
  simp [Rendering.tokens, Session.start, Quoting.start]

/-- A number and a string with an escaped quote, with a tab, two line ends, an em space and a
carriage return around them. -/
theorem tokenize_rendering_crlf :
    tokenize "a" "\t7\r\n\r\n\"x \\\" y\"\u2003\r" =
      [⟨⟨"a", 0⟩, .intLiteral 7⟩, ⟨⟨"a", 2⟩, .stringLiteral "x \\\" y"⟩] ∧
    Safe "\"x y\"".toList ∧ Word.ofText "\"x y\"" = .stringLiteral "x y" := by
  let r : Rendering := {
    pieces := [⟨['\t'], ['7'], List.all_eq_true.1 (by decide), by decide +kernel⟩,
      ⟨"\r\n\r\n".toList, "\"x \\\" y\"".toList, List.all_eq_true.1 (by decide), by decide +kernel⟩]
    trail := "\u2003\r".toList
    blank := List.all_eq_true.1 (by decide)
    apart := by decide }
  have htext : String.ofList r.text = "\t7\r\n\r\n\"x \\\" y\"\u2003\r" := by decide +kernel
  have htokens : r.tokens "a" =
      [⟨⟨"a", 0⟩, .intLiteral 7⟩, ⟨⟨"a", 2⟩, .stringLiteral "x \\\" y"⟩] := by decide +kernel
  have hread := (tokenize_rendering.1 r "a").1
  rw [htext, htokens] at hread
  exact ⟨hread, tokenize_rendering.2.2 "x y" (by decide +kernel) (by decide +kernel)
    (by decide +kernel) (by decide +kernel)⟩

end StackLang
