import StackLang.Proofs.Source.Runs
import StackLang.Proofs.Source.Unclosed

/-!
# Reading in chunks

A text may be read in several chunks, as long as each of them but the last ends with a newline.
What a session remembers between two lines, its row and its flags, is all that it remembers
between two chunks.

**Theorem (`tokens_append`).** Reading two chunks one after the other gives the tokens of the whole
text and leaves the same session. Every token has its place in the text, in the row that the
newlines before it give, and the flags are those of all lines, read as one text without comments and
without line ends.

Whole lines are lines of their own (`Text.lines_append_of_wholeLines`). A word has its place in a
text that is one line (`Quoting.exists_place_of_words`), and from there a token has its place on its
line, and then in the text.
-/

namespace StackLang

/-! ## Lines -/

/-- **Whole lines are lines of their own**, whatever follows. -/
theorem Text.lines_append_of_wholeLines {front : List Char}
    (h : front = [] ∨ front.getLast? = some '\n') (text : List Char) :
    lines (front ++ text) = lines front ++ lines text := by
  induction front using lines_induction with
  | last line hline =>
    rcases h with rfl | hlast
    · rfl
    · exact absurd (List.mem_of_getLast? hlast) hline
  | newline line rest hline ih =>
    have hrest : rest = [] ∨ rest.getLast? = some '\n' := by
      rcases List.eq_nil_or_concat' rest with rfl | ⟨rest', c, rfl⟩
      · exact .inl rfl
      · right
        simpa [List.getLast?_append, List.getLast?_cons] using h
    rw [List.append_assoc, List.cons_append, lines_append_newline hline, ih hrest,
      lines_append_newline hline, List.cons_append]

/-! ## Places of words -/

/-- **Every word has its place in the text**: what is in front of it has the words before it, and
with it there is one word more. -/
theorem Quoting.exists_place_of_words {q : Quoting} {text w : List Char}
    {ws ws' : List (List Char)} (h : q.words text = ws ++ w :: ws') :
    ∃ before rest, text = before ++ w ++ rest ∧ q.words before = ws ∧
      q.words (before ++ w) = ws ++ [w] := by
  induction text using List.reverseRecOn generalizing ws' with
  | nil => simp at h
  | append_singleton text c ih =>
    have hextend {ws'' : List (List Char)} (h' : q.words text = ws ++ w :: ws'') :
        ∃ before rest, text ++ [c] = before ++ w ++ rest ∧ q.words before = ws ∧
          q.words (before ++ w) = ws ++ [w] := by
      obtain ⟨before, rest, rfl, hbefore, hword⟩ := ih h'
      exact ⟨before, rest ++ [c], by simp, hbefore, hword⟩
    by_cases hsep : ((q.after text).next c).separates c = true
    · rw [words_append_cons text [] hsep, words_nil, List.append_nil] at h
      exact hextend h
    · -- the last word goes on, and all others are words without it
      obtain ⟨before, part, rfl, hpart, hwords⟩ := q.exists_last_word text
      have hmark : ∀ m ∈ (q.after before).mark (part ++ [c]), m.2 = false :=
        unmarked_append hpart (List.forall_mem_singleton.2 (Bool.eq_false_iff.2 hsep))
      have hlast : q.words (before ++ part ++ [c]) = q.words before ++ [part ++ [c]] := by
        rw [hwords, words_of_unmarked (by simp) hmark]
      have hword := hwords []
      rw [hlast] at h
      rcases List.eq_nil_or_concat' ws' with rfl | ⟨ws'', last, rfl⟩
      · obtain ⟨hbefore, hw⟩ := List.append_inj' h rfl
        cases hw
        exact ⟨before, [], by simp, hbefore, by rw [← hbefore, ← hlast, List.append_assoc]⟩
      · rw [← List.cons_append, ← List.append_assoc] at h
        obtain ⟨hbefore, -⟩ := List.append_inj' h rfl
        rw [List.append_nil, hbefore, List.append_assoc, List.cons_append] at hword
        exact hextend hword

namespace Session

/-! ## Places of tokens -/

theorem tokensOfLines_of_notMem (s : Session) {line : List Char} (h : '\n' ∉ line) :
    s.tokensOfLines (Text.lines line) = s.lineTokens line := by
  by_cases hnil : line = []
  · subst hnil
    simp [Text.lines, Text.linesOfPieces, tokensOfLines]
  · simp [Text.lines_of_notMem h hnil, tokensOfLines]

/-- What is read of the front of what is read is all of it. -/
theorem code_of_prefix_code {line front : List Char} (h : front <+: code line) :
    code front = front :=
  code_of_not_infix fun hmarker =>
    not_infix_of_upToComment (upToComment_code line) (hmarker.trans h.isInfix)

/-- The token `t` is spelled `raw` behind the text `before`, in which the tokens `front` are. -/
structure SpelledAt (s : Session) (before raw : List Char) (front : List Token) (t : Token) :
    Prop where
  atStart : s.tokensOfLines (Text.lines before) = front
  atEnd : s.tokensOfLines (Text.lines (before ++ raw)) = front ++ [t]
  oneLine : '\n' ∉ raw
  /-- the row is as many rows further down as there are newlines in front -/
  token : t = ⟨⟨s.file, s.row + before.count '\n'⟩, .ofText (.ofList raw)⟩

/-- **Every token of a line has its place on the line.** -/
theorem exists_spelledAt_of_line {s : Session} {line whole : List Char} {t : Token}
    {front back : List Token} (hwhole : line <+: whole) (hnl : '\n' ∉ whole)
    (h : s.lineTokens line = front ++ t :: back) :
    ∃ before raw rest, whole = before ++ raw ++ rest ∧ s.SpelledAt before raw front t := by
  simp only [lineTokens, lineWords, List.map_map] at h
  obtain ⟨ws, ws', hwords, rfl, hws'⟩ := List.map_eq_append_iff.1 h
  obtain ⟨w, ws', rfl, rfl, -⟩ := List.map_eq_cons_iff.1 hws'
  obtain ⟨before, rest, hcode, hbefore, hword⟩ := Quoting.exists_place_of_words hwords
  have hread {m : List Char} (hm : m <+: code line) :
      s.tokensOfLines (Text.lines m) = ((s.quoting.words m).map String.ofList).map
        fun raw => ⟨⟨s.file, s.row⟩, .ofText raw⟩ := by
    have hm' : m <+: whole := (hm.trans (prefix_code line)).trans hwhole
    rw [s.tokensOfLines_of_notMem fun hmem => hnl (hm'.subset hmem), lineTokens, lineWords,
      code_of_prefix_code hm]
  obtain ⟨tail, rfl⟩ := (prefix_code line).trans hwhole
  rw [hcode] at hnl hread ⊢
  refine ⟨before, w, rest ++ tail, by simp, ?_, ?_, ?_, ?_⟩
  · rw [hread ⟨w ++ rest, by simp⟩, hbefore, List.map_map]
  · rw [hread ⟨rest, rfl⟩, hword]
    simp
  · exact fun hmem => hnl (by simp [hmem])
  · rw [List.count_eq_zero.2 fun hmem => hnl (by simp [hmem])]
    rfl

theorem SpelledAt.newline {s : Session} {line before raw : List Char} {front : List Token}
    {t : Token} (hline : '\n' ∉ line)
    (h : (s.afterLine (Text.dropReturn line)).SpelledAt before raw front t) :
    s.SpelledAt (line ++ '\n' :: before) raw (s.lineTokens (Text.dropReturn line) ++ front) t where
  atStart := by
    rw [Text.lines_append_newline hline, tokensOfLines, h.atStart]
  atEnd := by
    rw [List.append_assoc, List.cons_append, Text.lines_append_newline hline, tokensOfLines,
      h.atEnd, List.append_assoc]
  oneLine := h.oneLine
  token := by
    have hrow : s.row + (line ++ '\n' :: before).count '\n' = s.row + 1 + before.count '\n' := by
      rw [Text.count_append_newline hline]
      omega
    rw [hrow]
    exact h.token

/-- **Every token has its place in the text.** -/
theorem exists_spelledAt {s : Session} {text : List Char} {t : Token} {front back : List Token}
    (h : s.tokensOfLines (Text.lines text) = front ++ t :: back) :
    ∃ before raw rest, text = before ++ raw ++ rest ∧ s.SpelledAt before raw front t := by
  induction text using Text.lines_induction generalizing s front with
  | last line hline =>
    rw [s.tokensOfLines_of_notMem hline] at h
    exact exists_spelledAt_of_line List.prefix_rfl hline h
  | newline line rest hline ih =>
    rw [Text.lines_append_newline hline, tokensOfLines] at h
    rcases List.append_eq_append_iff.1 h with ⟨later, rfl, hrest⟩ | ⟨later, hfirst, hrest⟩
    · -- the token is on a later line
      obtain ⟨before, raw, rest, rfl, hat⟩ := ih hrest
      exact ⟨line ++ '\n' :: before, raw, rest, by simp, hat.newline hline⟩
    · cases later with
      | nil =>
        have hlater : (s.afterLine (Text.dropReturn line)).tokensOfLines (Text.lines rest) =
            [] ++ t :: back := hrest.symm
        obtain ⟨before, raw, rest, rfl, hat⟩ := ih hlater
        rw [List.append_nil] at hfirst
        refine ⟨line ++ '\n' :: before, raw, rest, by simp, ?_⟩
        simpa [hfirst] using hat.newline hline
      | cons t' later =>
        obtain ⟨rfl, -⟩ := List.cons.inj hrest
        obtain ⟨before, raw, junk, hjunk, hat⟩ :=
          exists_spelledAt_of_line (Text.prefix_dropReturn line) hline hfirst
        exact ⟨before, raw, junk ++ '\n' :: rest, by simp [hjunk], hat⟩

/-! ## Sessions over several lines -/

theorem tokensOfLines_append (s : Session) (ls ls' : List (List Char)) :
    s.tokensOfLines (ls ++ ls') =
      s.tokensOfLines ls ++ (ls.foldl afterLine s).tokensOfLines ls' := by
  induction ls generalizing s with
  | nil => rfl
  | cons line ls ih => simp [tokensOfLines, ih]

theorem foldl_afterLine (s : Session) (ls : List (List Char)) :
    ls.foldl afterLine s =
      ⟨s.file, s.quoting.after (ls.flatMap code), s.row + ls.length⟩ := by
  induction ls generalizing s with
  | nil => rfl
  | cons line ls ih =>
    rw [List.foldl_cons, ih, List.flatMap_cons, Quoting.after_append, List.length_cons,
      Nat.add_comm ls.length, ← Nat.add_assoc]
    rfl

/-- **Reading in chunks is reading at once.** Two chunks, the first of them in whole lines, give the
tokens of both together and leave the session of both together. A token of a text is spelled on one
line of it, in the row that is as many rows further down as there are newlines in front, and the
tokens before it are those of the text in front. What is left behind a text are the flags after all
lines, read as one text without comments and line ends, and the row after all lines. -/
theorem tokens_append :
    (∀ (s : Session) (a b : String), (a = "" ∨ ∃ front, a = front ++ "\n") →
      s.tokens (a ++ b) = s.tokens a ++ (s.after a).tokens b ∧
        s.after (a ++ b) = (s.after a).after b) ∧
    (∀ (s : Session) (text : String) (t : Token) (front back : List Token),
      s.tokens text = front ++ t :: back →
      ∃ before raw rest : String, text = before ++ raw ++ rest ∧ s.tokens before = front ∧
        s.tokens (before ++ raw) = front ++ [t] ∧ '\n' ∉ raw.toList ∧
        t = ⟨⟨s.file, s.row + before.toList.count '\n'⟩, .ofText raw⟩) ∧
    ∀ (s : Session) (text : String),
      let ls := Text.lines text.toList
      s.after text = ⟨s.file, s.quoting.after (ls.flatMap code), s.row + ls.length⟩ := by
  refine ⟨fun s a b hwhole => ?_, fun s text t front back h => ?_, fun s text => ?_⟩
  · have hlast : a.toList = [] ∨ a.toList.getLast? = some '\n' := by
      rcases hwhole with rfl | ⟨front, rfl⟩
      · exact .inl rfl
      · exact .inr (by simp)
    have hlines : Text.lines (a ++ b).toList = Text.lines a.toList ++ Text.lines b.toList := by
      rw [String.toList_append, Text.lines_append_of_wholeLines hlast]
    constructor
    · rw [tokens, hlines, tokensOfLines_append]
      rfl
    · rw [after, hlines, List.foldl_append]
      rfl
  · obtain ⟨before, raw, rest, htext, hat⟩ := exists_spelledAt h
    refine ⟨.ofList before, .ofList raw, .ofList rest, ?_, ?_, ?_, ?_, ?_⟩
    · rw [← String.ofList_append, ← String.ofList_append, ← htext, String.ofList_toList]
    · simpa [tokens] using hat.atStart
    · simpa [tokens] using hat.atEnd
    · simpa using hat.oneLine
    · simpa using hat.token
  · exact s.foldl_afterLine _

/-- A chunk that ends in a quoted region, and with a backslash. The quote in front of the next chunk
is escaped, and the one behind it closes the region. -/
theorem tokens_append_carried :
    let s := start "a"
    let a := "1 \"b\r\n\n c\\\n"
    let b := "\" \"d e"
    let t : Token := ⟨⟨"a", 3⟩, .identifier "\" \"d"⟩
    s.after a = ⟨"a", ⟨true, true⟩, 3⟩ ∧ (s.after a).tokens b = [t, ⟨⟨"a", 3⟩, .identifier "e"⟩] ∧
    s.tokens (a ++ b) = s.tokens a ++ [t, ⟨⟨"a", 3⟩, .identifier "e"⟩] ∧
    ∃ before raw rest : String, a ++ b = before ++ raw ++ rest ∧ s.tokens before = s.tokens a ∧
      t = ⟨⟨"a", 0 + before.toList.count '\n'⟩, .ofText raw⟩ := by
  intro s a b t
  have hafter : s.after a = ⟨"a", ⟨true, true⟩, 3⟩ := by decide +kernel
  have htokens : (s.after a).tokens b = [t, ⟨⟨"a", 3⟩, .identifier "e"⟩] := by decide +kernel
  have hwhole : a = "1 \"b\r\n\n c\\" ++ "\n" := by decide +kernel
  have hall := (tokens_append.1 s a b (.inr ⟨_, hwhole⟩)).1
  rw [htokens] at hall
  obtain ⟨before, raw, rest, htext, hfront, -, -, ht⟩ :=
    tokens_append.2.1 s (a ++ b) t (s.tokens a) _ hall
  exact ⟨hafter, htokens, hall, before, raw, rest, htext, hfront, ht⟩

end Session

end StackLang
