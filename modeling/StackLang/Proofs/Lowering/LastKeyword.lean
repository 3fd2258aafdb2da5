import StackLang.Proofs.Lowering.Division
import StackLang.Proofs.Lowering.Tail
import StackLang.Proofs.Lowering.Unused

/-!
# A definition at the end of the source

A definition that is cut off by the end of the source is an error: with no name behind it, the
keyword `macro` is reported as followed by the end of the input. But the name is taken from what
waits, and when bodies run last, the bodies of earlier invocations wait behind the source.

**Theorem (`lower_keyword_last`).** So this report is made exactly if bodies run in place or nothing
has been expanded but empty bodies. Otherwise the first token that has been expanded is taken for
the name, and as no `end` can follow it, the error is about that token, far from the keyword.

What waits behind the source is known because every token of the source has its turn before any
token of a body (`Path.queued_eq`).
-/

namespace StackLang

namespace Lowering

variable {o : Options} {s s' : Lowering} {mvs : List Move} {i : Pending}
  {front back queued : List Pending} {key : Token}

/-- The tokens of the body that a move expands. -/
def Move.expanded : Move → List Token
  | expand _ _ body => body.tokens
  | _ => []

/-- The tokens of the bodies that the moves expand, in order. -/
def expandedTokens (mvs : List Move) : List Token :=
  mvs.flatMap (·.expanded)

/-- What is reported of a token that is taken for the name of a definition without an `end`. -/
def misnamed (m : MacroTable MacroBody) (t : Token) : CompileError :=
  match m.checkName t with
  | .error e => e
  | .ok name => .incompleteMacro t.location name

/-! ## What waits behind the source -/

/-- **Behind the source wait the bodies expanded so far**, as long as a token of the source has its
turn. Here `front` is what is left of the source, and `back` has waited behind it before. -/
theorem Path.queued_eq (ho : o.placement = .tail) (h : Path o s mvs s')
    (hq : s.waiting = front ++ back) (hfront : ∀ j ∈ front, j.trail = []) (hback : Queued back)
    (hq' : s'.waiting = i :: queued) (hi : i.trail = []) (hqueued : ∀ j ∈ queued, j.trail ≠ []) :
    queued.map (·.token) = back.map (·.token) ++ expandedTokens mvs := by
  induction h generalizing front back with
  | nil s =>
    have hwaiting : i :: queued = front ++ back := hq'.symm.trans hq
    cases front with
    | nil =>
      obtain rfl : back = i :: queued := hwaiting.symm
      exact absurd hi (hback.trail i List.mem_cons_self)
    | cons j front =>
      obtain ⟨-, rfl⟩ := List.cons.inj hwaiting
      have hnil : front = [] := by
        refine List.eq_nil_iff_forall_not_mem.2 fun k hk => ?_
        exact hqueued k (List.mem_append_left back hk) (hfront k (List.mem_cons_of_mem j hk))
      rw [hnil]
      exact (List.append_nil _).symm
  | @cons s s₁ s' mv mvs hstep hpath ih =>
    cases front with
    | nil =>
      -- no token of the source is left to have its turn
      have hunread := (Path.cons hstep hpath).unread_le
      rw [hq', unread_cons hi, hq, List.nil_append, unread_eq_zero hback.trail] at hunread
      omega
    | cons j front =>
      have hrest : ∀ k ∈ front, k.trail = [] := fun k hk => hfront k (List.mem_cons_of_mem j hk)
      obtain ⟨front₁, back₁, hturn, hq₁⟩ := hstep.turn ho hq hback.endFree
      cases hturn with
      | emit => exact ih hq₁ hrest hback hq'
      | @expand name body hm =>
        rw [ih hq₁ hrest (hback.append_pending body name j.trail) hq', List.map_append,
          MacroBody.map_token_pending, List.append_assoc]
        rfl
      | define hkey hname hfront₁ hinner hclose =>
        subst hfront₁
        exact ih hq₁ (fun k hk => hrest k (by simp [hk])) hback hq'

/-- In place nothing waits behind the source. -/
theorem Divided.queued_eq_nil {ts : List Token} (hs : s.Divided o ts) (ho : o.placement = .inPlace)
    (hq : s.waiting = i :: queued) (hi : i.trail = []) (hqueued : ∀ j ∈ queued, j.trail ≠ []) :
    queued = [] := by
  obtain ⟨left, expanded, -, hmerge, -, htrail⟩ := hs
  rw [ho, hq] at hmerge
  cases expanded with
  | cons j expanded =>
    obtain ⟨rfl, -⟩ := List.cons.inj hmerge
    exact absurd hi (htrail i List.mem_cons_self)
  | nil =>
    have hsource : i :: queued = source left := hmerge
    refine List.eq_nil_iff_forall_not_mem.2 fun j hj => hqueued j hj ?_
    exact trail_source (hsource ▸ List.mem_cons_of_mem i hj : j ∈ source left)

/-! ## What is reported -/

/-- A literal is read back from its spelling, so none is written as `end of input`. -/
theorem text_ne_endOfInput {w : Word} (hw : w.identifier? = none) : w.text ≠ "end of input" := by
  have hread : Word.ofText "end of input" = .identifier "end of input" := by decide
  intro htext
  cases w with
  | intLiteral v =>
    rw [← htext, Word.ofText_text_intLiteral] at hread
    cases hread
  | stringLiteral s =>
    rw [← htext, Word.ofText_text_stringLiteral] at hread
    cases hread
  | identifier n => cases hw

theorem checkName_ne_endOfInput (m : MacroTable MacroBody) (t : Token) (location : Location) :
    m.checkName t ≠ .error (.malformedMacro location "end of input") := by
  intro h
  generalize he : CompileError.malformedMacro location "end of input" = e at h
  cases MacroTable.checkName_eq_error_iff.1 h with
  | literal hword => exact text_ne_endOfInput hword (CompileError.malformedMacro.inj he).2.symm
  | builtin => cases he
  | taken => cases he

theorem misnamed_ne_endOfInput (m : MacroTable MacroBody) (t : Token) (location : Location) :
    misnamed m t ≠ .malformedMacro location "end of input" := by
  intro h
  unfold misnamed at h
  split at h
  · next e hname =>
    subst h
    exact checkName_ne_endOfInput m t location hname
  · cases h

/-- A keyword with nothing behind it is followed by the end of the input. -/
theorem fails_of_keyword (hm : s.macros.NoBuiltin) (hkey : key.word = .identifier "macro")
    (hq : s.waiting = [⟨key, []⟩]) :
    Fails o s (.malformedMacro key.location "end of input") :=
  fails_iff.2 (.noName hq (hm.invoked?_of_keyword hkey) hkey)

/-- A keyword in front of tokens without an `end` takes the first of them for the name. -/
theorem fails_of_misnamed (hm : s.macros.NoBuiltin) (hkey : key.word = .identifier "macro")
    {j : Pending} (hq : s.waiting = ⟨key, []⟩ :: j :: queued) (hfree : EndFree queued) :
    Fails o s (misnamed s.macros j.token) := by
  have hnone := hm.invoked?_of_keyword hkey
  rw [fails_iff, misnamed]
  split
  · next hname => exact .name hq hnone hkey hname
  · next hname => exact .unfinished hq hnone hkey hname (MacroBody.cut?_eq_none_iff.2 hfree)

/-- **The keyword is the last token of the source.** If nothing waits behind it, then this is
reported, and otherwise the first token that waits is taken for the name. -/
theorem Path.result_of_keyword {ts : List Token} (h : Path o (start ts) mvs s)
    (hq : s.waiting = ⟨key, []⟩ :: queued) (hlast : ∀ i ∈ queued, i.trail ≠ [])
    (hkey : key.word = .identifier "macro") :
    (queued = [] ∧ (lower o ts).result = .error (.malformedMacro key.location "end of input")) ∨
      ∃ j later, queued = j :: later ∧
        (lower o ts).result = .error (misnamed s.macros j.token) := by
  have hm : s.macros.NoBuiltin := h.noBuiltin MacroTable.noBuiltin_empty
  have htraced : s.Traced := h.traced (traced_start ts)
  cases queued with
  | nil => exact .inl ⟨rfl, h.result_of_fails (fails_of_keyword hm hkey hq) #[]⟩
  | cons j later =>
    have hfree : EndFree later := by
      intro k hk
      have hwaits : k ∈ s.waiting := by simp [hq, hk]
      exact (htraced k hwaits).isEnd_eq_false (hlast k (List.mem_cons_of_mem j hk))
    exact .inr ⟨j, later, rfl, h.result_of_fails (fails_of_misnamed hm hkey hq hfree) #[]⟩

end Lowering

open Lowering

/-- **A definition without a name at the end of a source** is reported as followed by the end of the
input exactly if bodies run in place or all that has been expanded are empty bodies. Otherwise the
first token that has been expanded is taken for the name, and the report is that it is none, or that
its definition has no `end`. -/
theorem lower_keyword_last {o : Options} {pre : List Token} {key : Token} {mvs : List Move}
    {s : Lowering} {queued : List Pending} (hpath : Path o (start (pre ++ [key])) mvs s)
    (hq : s.waiting = ⟨key, []⟩ :: queued) (hlast : ∀ i ∈ queued, i.trail ≠ [])
    (hkey : key.word = .identifier "macro") :
    ((lower o (pre ++ [key])).result = .error (.malformedMacro key.location "end of input") ↔
      o.placement = .inPlace ∨ expandedTokens mvs = []) ∧
    ∀ t later, o.placement = .tail → expandedTokens mvs = t :: later →
      (lower o (pre ++ [key])).result = .error (misnamed s.macros t) := by
  have htail (ho : o.placement = .tail) : queued.map (·.token) = expandedTokens mvs := by
    have hstart : (start (pre ++ [key])).waiting = source (pre ++ [key]) ++ [] :=
      (List.append_nil _).symm
    exact hpath.queued_eq ho hstart (fun _ => trail_source) queued_nil hq rfl hlast
  rcases hpath.result_of_keyword hq hlast hkey with ⟨rfl, hresult⟩ | ⟨j, later, rfl, hresult⟩
  · refine ⟨iff_of_true hresult ?_, fun t later ho hexpanded => ?_⟩
    · cases ho : o.placement with
      | inPlace => exact .inl rfl
      | tail => exact .inr (htail ho).symm
    · cases (htail ho).trans hexpanded
  · have ho : o.placement = .tail := by
      cases ho : o.placement with
      | inPlace => cases hpath.divided.queued_eq_nil ho hq rfl hlast
      | tail => rfl
    have hexpanded : expandedTokens mvs = j.token :: later.map (·.token) := (htail ho).symm
    refine ⟨iff_of_false (fun h => ?_) ?_, fun t later' _ ht => ?_⟩
    · exact misnamed_ne_endOfInput _ _ _ (Except.error.inj (hresult.symm.trans h))
    · rintro (hinPlace | hnil)
      · cases ho.symm.trans hinPlace
      · cases hexpanded.symm.trans hnil
    · obtain ⟨rfl, -⟩ := List.cons.inj (hexpanded.symm.trans ht)
      exact hresult

/-- `macro square dup * end 3 square macro`, where `dup` is taken for the name. -/
theorem lower_keyword_last_square :
    let word (row : Nat) (name : String) : Token := ⟨⟨"a", row⟩, .identifier name⟩
    let pre : List Token := [word 0 "macro", word 0 "square", word 1 "dup", word 1 "*",
      word 1 "end", ⟨⟨"a", 2⟩, .intLiteral 3⟩, word 2 "square"]
    let key : Token := word 3 "macro"
    (∃ mvs s, Path .default (start (pre ++ [key])) mvs s ∧
      s.waiting = [⟨key, []⟩, ⟨word 1 "dup", ["square"]⟩, ⟨word 1 "*", ["square"]⟩] ∧
      expandedTokens mvs = [word 1 "dup", word 1 "*"]) ∧
    key.word = .identifier "macro" ∧
    (lower .default (pre ++ [key])).result = .error (.reservedMacroName ⟨"a", 1⟩ "dup") ∧
    (lower .default (pre ++ [key])).result ≠
      .error (.malformedMacro key.location "end of input") := by
  intro word pre key
  have hcomes : ∃ mvs s, Path .default (start (pre ++ [key])) mvs s ∧
      s.waiting = [⟨key, []⟩, ⟨word 1 "dup", ["square"]⟩, ⟨word 1 "*", ["square"]⟩] ∧
      expandedTokens mvs = [word 1 "dup", word 1 "*"] ∧
      misnamed s.macros (word 1 "dup") = .reservedMacroName ⟨"a", 1⟩ "dup" :=
    ⟨_, _, .cons (.define rfl rfl rfl rfl rfl) (.cons (.emit rfl rfl rfl nofun rfl)
      (.cons (.expand rfl rfl (by decide) nofun) (.nil _))), rfl, rfl, rfl⟩
  obtain ⟨mvs, s, hpath, hq, hexpanded, hmisnamed⟩ := hcomes
  obtain ⟨hend, hname⟩ := lower_keyword_last hpath hq (by decide) rfl
  have hresult := hname _ _ rfl hexpanded
  rw [hmisnamed] at hresult
  refine ⟨⟨mvs, s, hpath, hq, hexpanded⟩, rfl, hresult, fun h => ?_⟩
  rcases hend.1 h with hinPlace | hnil
  · cases hinPlace
  · cases hexpanded.symm.trans hnil

/-- In `macro x 1 end x macro` the last token of the source is a keyword without a name, and what is
reported is that `1` is no name, at the place of the `1`. -/
theorem lower_keyword_last_behind_body :
    let word (row : Nat) (name : String) : Token := ⟨⟨"a", row⟩, .identifier name⟩
    let pre : List Token := [word 0 "macro", word 0 "x", ⟨⟨"a", 1⟩, .intLiteral 1⟩, word 1 "end",
      word 2 "x"]
    let key : Token := word 3 "macro"
    (∃ mvs s queued, Path .default (start (pre ++ [key])) mvs s ∧
      s.waiting = ⟨key, []⟩ :: queued ∧ ∀ i ∈ queued, i.trail ≠ []) ∧
    (lower .default (pre ++ [key])).result = .error (.malformedMacro ⟨"a", 1⟩ "1") ∧
    (lower .default (pre ++ [key])).result ≠
      .error (.malformedMacro key.location "end of input") := by
  intro word pre key
  have hcomes : ∃ mvs s, Path .default (start (pre ++ [key])) mvs s ∧
      s.waiting = [⟨key, []⟩, ⟨⟨⟨"a", 1⟩, .intLiteral 1⟩, ["x"]⟩] ∧
      misnamed s.macros ⟨⟨"a", 1⟩, .intLiteral 1⟩ = .malformedMacro ⟨"a", 1⟩ "1" :=
    ⟨_, _, .cons (.define rfl rfl rfl rfl rfl)
      (.cons (.expand rfl rfl (by decide) nofun) (.nil _)), rfl, rfl⟩
  obtain ⟨mvs, s, hpath, hq, hmisnamed⟩ := hcomes
  have hm : s.macros.NoBuiltin := hpath.noBuiltin MacroTable.noBuiltin_empty
  have hresult : (lower .default (pre ++ [key])).result = .error _ :=
    hpath.result_of_fails (fails_of_misnamed hm rfl hq nofun) #[]
  rw [hmisnamed] at hresult
  refine ⟨⟨mvs, s, _, hpath, hq, by decide⟩, hresult, fun h => ?_⟩
  cases hresult.symm.trans h

end StackLang
