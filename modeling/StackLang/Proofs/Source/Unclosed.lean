import Mathlib.Data.List.Induction
import StackLang.Proofs.Source.Line
import StackLang.Proofs.Text.Lines

/-!
# Where an open region opens

A quoted region that is open at the end of a text has been opened by some quote of it: the quote
behind the last place where no region was open. From there on nothing is a separator, so the word
that holds this quote reaches to the end of the line (`Session.OpensAt`).

**Theorem (`Session.exists_opensAt`).** If no region is open at the start of a text but one is open
at its end, then there is a word in the text at which that region opens.

Within a line this is a matter of characters (`Quoting.exists_opening`). A comment, and a carriage
return in front of a newline, are not read, and hold no quote that counts (`Session.code_cases`).
-/

namespace StackLang

namespace Quoting

/-- **An open region has been opened by a quote**, and behind it a region is open everywhere. -/
theorem exists_opening {q : Quoting} {text front : List Char}
    (hopen : (q.after text).quoted = true) (hfront : front <+: text)
    (hclosed : (q.after front).quoted = false) :
    ∃ before back, text = before ++ '"' :: back ∧ (q.after before).quoted = false ∧
      ∀ m, m <+: back → (q.after (before ++ '"' :: m)).quoted = true := by
  induction text using List.reverseRecOn with
  | nil =>
    rw [List.prefix_nil.1 hfront] at hclosed
    cases hopen.symm.trans hclosed
  | append_singleton text c ih =>
    by_cases htext : (q.after text).quoted = true
    · have hfront' : front <+: text := by
        rcases List.prefix_concat_iff.1 hfront with rfl | hfront'
        · cases hopen.symm.trans hclosed
        · exact hfront'
      obtain ⟨before, back, rfl, hbefore, hback⟩ := ih htext hfront'
      refine ⟨before, back ++ [c], by simp, hbefore, fun m hm => ?_⟩
      rcases List.prefix_concat_iff.1 hm with rfl | hm
      · simpa using hopen
      · exact hback m hm
    · have htext : (q.after text).quoted = false := Bool.eq_false_iff.2 htext
      have hquote : c = '"' := by
        by_contra hc
        rw [after_append, after_cons, after_nil, quoted_next hc, htext] at hopen
        cases hopen
      subst hquote
      refine ⟨text, [], rfl, htext, fun m hm => ?_⟩
      rw [List.prefix_nil.1 hm]
      exact hopen

/-- **The last word of a text may go on**: a text divides into a front that ends with a separator
and the part of a word, and what follows joins this part. -/
theorem exists_last_word (q : Quoting) (text : List Char) :
    ∃ before part, text = before ++ part ∧ (∀ m ∈ (q.after before).mark part, m.2 = false) ∧
      ∀ rest, q.words (text ++ rest) = q.words before ++ (q.after before).words (part ++ rest) := by
  induction text using List.reverseRecOn with
  | nil => exact ⟨[], [], rfl, nofun, fun rest => by simp⟩
  | append_singleton text c ih =>
    by_cases hsep : ((q.after text).next c).separates c = true
    · have hwords := words_append_cons text [] hsep
      refine ⟨text ++ [c], [], by simp, nofun, fun rest => ?_⟩
      rw [words_nil, List.append_nil] at hwords
      rw [List.append_assoc, List.singleton_append, words_append_cons text rest hsep, hwords,
        after_append]
      rfl
    · obtain ⟨before, part, rfl, hpart, hwords⟩ := ih
      refine ⟨before, part ++ [c], by simp, ?_, fun rest => ?_⟩
      · exact unmarked_append hpart (List.forall_mem_singleton.2 (Bool.eq_false_iff.2 hsep))
      · simpa using hwords (c :: rest)

/-- A quote at which a region opens for good is part of the last word. -/
theorem exists_word_of_opening {q : Quoting} {text back : List Char}
    (h : ∀ m, m <+: back → (q.after (text ++ '"' :: m)).quoted = true) :
    ∃ before front, text = before ++ front ∧
      front ++ '"' :: back ∈ q.words (text ++ '"' :: back) := by
  obtain ⟨before, front, rfl, hfront, hwords⟩ := q.exists_last_word text
  refine ⟨before, front, rfl, ?_⟩
  have hback : ∀ m ∈ (q.after (before ++ front)).mark ('"' :: back), m.2 = false := by
    refine unmarked_of_open fun part hpart hne => ?_
    cases part with
    | nil => exact absurd rfl hne
    | cons c m =>
      obtain ⟨rfl, hm⟩ := List.cons_prefix_cons.1 hpart
      rw [← after_append]
      exact h m hm
  have hword : (q.after before).words (front ++ '"' :: back) = [front ++ '"' :: back] := by
    exact words_of_unmarked (by simp) (unmarked_append hfront hback)
  rw [hwords, hword]
  exact List.mem_append_right _ List.mem_cons_self

end Quoting

namespace Session

/-- True if a quoted region is open after a text that comes next. -/
def isOpenAfter (s : Session) (text : List Char) : Bool :=
  ((Text.lines text).foldl afterLine s).quoting.quoted

theorem isOpenAfter_line (s : Session) {line : List Char} (h : '\n' ∉ line) :
    s.isOpenAfter line = (s.quoting.after (code line)).quoted := by
  by_cases hnil : line = []
  · subst hnil
    rfl
  · rw [isOpenAfter, Text.lines_of_notMem h hnil]
    rfl

theorem isOpenAfter_newline (s : Session) {line : List Char} (h : '\n' ∉ line)
    (rest : List Char) : s.isOpenAfter (line ++ '\n' :: rest) =
      (s.afterLine (Text.dropReturn line)).isOpenAfter rest := by
  rw [isOpenAfter, Text.lines_append_newline h]
  rfl

/-- **What is read of the front of a line** is all of it, up to a comment. Behind that, the slash
of a marker and the carriage return of a line end may be read in addition, but no quote. -/
theorem code_cases {line whole front : List Char}
    (hwhole : whole = line ∨ whole = line ++ ['\r']) (hfront : front <+: whole) :
    (front <+: code line ∧ code front = front) ∨
      (code line <+: front ∧
        ∀ q : Quoting, (q.after (code front)).quoted = (q.after (code line)).quoted) := by
  induction line generalizing whole front with
  | nil =>
    rcases hwhole with rfl | rfl
    · rw [List.prefix_nil.1 hfront]
      exact .inl ⟨List.prefix_rfl, rfl⟩
    · refine .inr ⟨List.nil_prefix, fun q => ?_⟩
      rcases List.prefix_concat_iff.1 hfront with rfl | hnil
      · exact Quoting.quoted_after (by decide)
      · rw [List.prefix_nil.1 hnil]
  | cons c cs ih =>
    obtain ⟨tail, rfl, htail⟩ : ∃ tail, whole = c :: tail ∧ (tail = cs ∨ tail = cs ++ ['\r']) := by
      rcases hwhole with rfl | rfl
      · exact ⟨cs, rfl, .inl rfl⟩
      · exact ⟨cs ++ ['\r'], rfl, .inr rfl⟩
    cases front with
    | nil => exact .inl ⟨List.nil_prefix, rfl⟩
    | cons d ds =>
      obtain ⟨rfl, hds⟩ := List.cons_prefix_cons.1 hfront
      have hhead : ds = [] ∨ (ds.head? = some '/' ↔ cs.head? = some '/') := by
        cases ds with
        | nil => exact .inl rfl
        | cons e es =>
          obtain ⟨rest, hrest⟩ := hds
          refine .inr ?_
          rcases htail with rfl | rfl
          · rw [← hrest]
            rfl
          · cases cs with
            | nil => simp [(List.cons.inj hrest).1]
            | cons x xs => simp [(List.cons.inj hrest).1]
      by_cases hmarker : commentMarker.toList <+: d :: cs
      · -- the comment starts here, and at most its first slash is read
        refine .inr ⟨code_of_marker hmarker ▸ List.nil_prefix, fun q => ?_⟩
        obtain ⟨rfl, hslash⟩ := marker_isPrefix_iff.1 hmarker
        rw [code_of_marker hmarker]
        rcases hhead with rfl | hhead
        · exact Quoting.quoted_after (by decide)
        · rw [code_of_marker (marker_isPrefix_iff.2 ⟨rfl, hhead.2 hslash⟩)]
      · have hnone : ¬ commentMarker.toList <+: d :: ds := by
          intro h
          obtain ⟨rfl, hslash⟩ := marker_isPrefix_iff.1 h
          rcases hhead with rfl | hhead
          · cases hslash
          · exact hmarker (marker_isPrefix_iff.2 ⟨rfl, hhead.1 hslash⟩)
        rw [code_of_not_marker hmarker, code_of_not_marker hnone]
        rcases ih htail hds with ⟨hle, hcode⟩ | ⟨hle, hquoted⟩
        · exact .inl ⟨List.cons_prefix_cons.2 ⟨rfl, hle⟩, congrArg _ hcode⟩
        · exact .inr ⟨List.cons_prefix_cons.2 ⟨rfl, hle⟩, fun q => hquoted (q.next d)⟩

/-- The region that is open at the end of `before ++ front ++ '"' :: back ++ rest` opens at this
quote, in the word `front ++ '"' :: back`. -/
structure OpensAt (s : Session) (before front back rest : List Char) : Prop where
  /-- no region is open before the quote -/
  closed : s.isOpenAfter (before ++ front) = false
  /-- a region is open everywhere behind the quote -/
  opened : ∀ m, m <+: back ++ rest → s.isOpenAfter (before ++ front ++ '"' :: m) = true
  /-- the word is a token, in the row that the newlines before it give -/
  word : ⟨⟨s.file, s.row + before.count '\n'⟩, .ofText (.ofList (front ++ '"' :: back))⟩ ∈
    s.tokensOfLines (Text.lines (before ++ front ++ '"' :: back ++ rest))

theorem OpensAt.newline {s : Session} {line before front back rest : List Char}
    (hline : '\n' ∉ line)
    (h : (s.afterLine (Text.dropReturn line)).OpensAt before front back rest) :
    s.OpensAt (line ++ '\n' :: before) front back rest where
  closed := by
    rw [List.append_assoc, List.cons_append, s.isOpenAfter_newline hline]
    exact h.closed
  opened m hm := by
    simp only [List.append_assoc, List.cons_append]
    rw [s.isOpenAfter_newline hline, ← List.append_assoc]
    exact h.opened m hm
  word := by
    have hrow : s.row + (line ++ '\n' :: before).count '\n' = s.row + 1 + before.count '\n' := by
      rw [Text.count_append_newline hline]
      omega
    simp only [List.append_assoc, List.cons_append, hrow]
    rw [Text.lines_append_newline hline]
    refine List.mem_append_right _ ?_
    simpa [afterLine] using h.word

/-- **The quote on a line** that opens the region which is open at the end of the line. -/
theorem exists_opening_of_line {s : Session} {line whole p : List Char} (hnl : '\n' ∉ whole)
    (hwhole : whole = line ∨ whole = line ++ ['\r'])
    (hopen : (s.quoting.after (code line)).quoted = true) (hp : p <+: whole)
    (hclosed : s.isOpenAfter p = false) :
    ∃ before front back rest, whole = before ++ front ++ '"' :: back ++ rest ∧
      s.isOpenAfter (before ++ front) = false ∧
      (∀ m, m <+: back ++ rest → s.isOpenAfter (before ++ front ++ '"' :: m) = true) ∧
      ⟨⟨s.file, s.row⟩, .ofText (.ofList (front ++ '"' :: back))⟩ ∈ s.lineTokens line := by
  have hline {m : List Char} (hm : m <+: whole) :
      s.isOpenAfter m = (s.quoting.after (code m)).quoted :=
    s.isOpenAfter_line fun hmem => hnl (hm.subset hmem)
  have hcode : code line <+: whole := by
    rcases hwhole with rfl | rfl
    · exact prefix_code _
    · exact (prefix_code line).trans (List.prefix_append _ _)
  have hread {m : List Char} (hm : m <+: code line) :
      s.isOpenAfter m = (s.quoting.after m).quoted := by
    rw [hline (hm.trans hcode)]
    rcases code_cases hwhole (hm.trans hcode) with ⟨-, he⟩ | ⟨hge, hquoted⟩
    · rw [he]
    · rw [hquoted, hm.eq_of_length_le hge.length_le]
  have hbehind {m : List Char} (hm : m <+: whole) (hge : code line <+: m) :
      s.isOpenAfter m = true := by
    rcases code_cases hwhole hm with ⟨hle, -⟩ | ⟨-, hquoted⟩
    · rw [hread hle, hle.eq_of_length_le hge.length_le, hopen]
    · rw [hline hm, hquoted, hopen]
  have hle : p <+: code line := by
    refine (List.prefix_or_prefix_of_prefix hp hcode).resolve_right fun hge => ?_
    cases hclosed.symm.trans (hbehind hp hge)
  obtain ⟨text, back, htext, hbefore, hback⟩ :=
    Quoting.exists_opening hopen hle (hread hle ▸ hclosed)
  obtain ⟨before, front, rfl, hword⟩ := Quoting.exists_word_of_opening hback
  obtain ⟨rest, hrest⟩ := hcode
  have hwhole' : whole = before ++ front ++ '"' :: (back ++ rest) := by simp [← hrest, htext]
  have hquote {m m' : List Char} (hm : m <+: m') :
      before ++ front ++ '"' :: m <+: before ++ front ++ '"' :: m' :=
    (List.prefix_append_right_inj _).2 (List.cons_prefix_cons.2 ⟨rfl, hm⟩)
  refine ⟨before, front, back, rest, by simp [hwhole'], ?_, fun m hm => ?_, ?_⟩
  · rw [hread (htext ▸ List.prefix_append _ _), hbefore]
  · rcases List.prefix_or_prefix_of_prefix hm (List.prefix_append back rest) with hm' | hm'
    · rw [hread (htext ▸ hquote hm'), hback m hm']
    · exact hbehind (hwhole' ▸ hquote hm) (htext ▸ hquote hm')
  · refine List.mem_map.2 ⟨_, List.mem_map.2 ⟨_, ?_, rfl⟩, rfl⟩
    rw [htext]
    exact hword

/-- **An open region has been opened in a word**, if there is a place where no region was open. -/
theorem exists_opensAt_of_closed {s : Session} {text p : List Char}
    (hopen : s.isOpenAfter text = true) (hp : p <+: text) (hclosed : s.isOpenAfter p = false) :
    ∃ before front back rest, text = before ++ front ++ '"' :: back ++ rest ∧
      s.OpensAt before front back rest := by
  induction text using Text.lines_induction generalizing s p with
  | last line hline =>
    have hopen' : (s.quoting.after (code line)).quoted = true := s.isOpenAfter_line hline ▸ hopen
    obtain ⟨before, front, back, rest, rfl, hbefore, hback, htoken⟩ :=
      exists_opening_of_line hline (.inl rfl) hopen' hp hclosed
    refine ⟨before, front, back, rest, rfl, hbefore, hback, ?_⟩
    have hrow : before.count '\n' = 0 :=
      List.count_eq_zero.2 fun hmem => hline (by simp [hmem])
    rw [Text.lines_of_notMem hline (by simp), hrow]
    exact List.mem_append_left _ htoken
  | newline line rest hline ih =>
    rw [s.isOpenAfter_newline hline] at hopen
    by_cases hlater : ∃ m, m <+: rest ∧
        (s.afterLine (Text.dropReturn line)).isOpenAfter m = false
    · -- the region opens on a later line
      obtain ⟨m, hm, hm'⟩ := hlater
      obtain ⟨before, front, back, rest, rfl, hat⟩ := ih hopen hm hm'
      exact ⟨line ++ '\n' :: before, front, back, rest, by simp, hat.newline hline⟩
    · -- the region stays open behind the line
      have hall : ∀ m, m <+: rest →
          (s.afterLine (Text.dropReturn line)).isOpenAfter m = true := by
        intro m hm
        by_contra hm'
        exact hlater ⟨m, hm, Bool.eq_false_iff.2 hm'⟩
      have hp' : p <+: line := by
        refine (Text.of_prefix_newline hp).resolve_right ?_
        rintro ⟨m, hm, rfl⟩
        rw [s.isOpenAfter_newline hline, hall m hm] at hclosed
        cases hclosed
      obtain ⟨before, front, back, junk, hjunk, hbefore, hback, htoken⟩ :=
        exists_opening_of_line hline (Text.eq_dropReturn line) (hall [] List.nil_prefix) hp' hclosed
      have hrow : before.count '\n' = 0 :=
        List.count_eq_zero.2 fun hmem => hline (by simp [hjunk, hmem])
      have htext : line ++ '\n' :: rest =
          before ++ front ++ '"' :: back ++ (junk ++ '\n' :: rest) := by simp [hjunk]
      refine ⟨before, front, back, junk ++ '\n' :: rest, htext, hbefore, fun m hm => ?_, ?_⟩
      · rw [← List.append_assoc] at hm
        rcases Text.of_prefix_newline hm with hm | ⟨later, hle, rfl⟩
        · exact hback m hm
        · have hfront : before ++ front ++ '"' :: (back ++ junk ++ '\n' :: later) =
              line ++ '\n' :: later := by simp [hjunk]
          rw [hfront, s.isOpenAfter_newline hline]
          exact hall later hle
      · rw [← htext, Text.lines_append_newline hline, hrow]
        exact List.mem_append_left _ htoken

/-- **An open region has been opened in a word**, if no region was open at first. -/
theorem exists_opensAt {s : Session} {text : List Char} (hs : s.quoting.quoted = false)
    (hopen : s.isOpenAfter text = true) :
    ∃ before front back rest, text = before ++ front ++ '"' :: back ++ rest ∧
      s.OpensAt before front back rest :=
  exists_opensAt_of_closed hopen List.nil_prefix hs

end Session

end StackLang
