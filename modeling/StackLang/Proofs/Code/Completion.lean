import StackLang.Proofs.Code.Draft

/-!
# Completing code with open blocks

Code with open blocks has one reading, and it can always be completed: from the innermost block
outwards, a `while` takes its `do` and its `end`, and every other block its `end`.

**Theorem (`Draft.opcodes_injective`).** A list of opcodes is spelled by at most one draft.

**Theorem (`Draft.exists_pushes_closing`).** Every draft grows by its closing words to code without open
blocks.
-/

namespace StackLang

namespace Draft

/-! ## One reading -/

theorem Pushes.opcodes_eq {d d' : Draft} {os : List Opcode} (h : Pushes d os d') :
    d'.opcodes = d.opcodes ++ os := by
  induction h with
  | nil => rw [List.append_nil]
  | cons hpush _ ih => rw [ih, hpush.opcodes_eq, List.append_assoc, List.singleton_append]

theorem Pushes.single {d d' : Draft} {o : Opcode} (h : Push d o d') : Pushes d [o] d' :=
  .cons h (.nil d')

/-- The opcodes of a frame open its block. -/
theorem pushes_frame (f : Frame) (outer : List Frame) :
    Pushes ⟨outer, .empty⟩ (f.opcodes ++ [f.word]) ⟨f :: outer, .empty⟩ := by
  cases f with
  | ifBlock before =>
    exact (pushes_opcodes before outer .empty).append (.single (.openIf outer before))
  | whileLoop before =>
    exact (pushes_opcodes before outer .empty).append (.single (.openWhile outer before))
  | elseBlock before yes =>
    have hyes := pushes_opcodes yes (.ifBlock before :: outer) .empty
    exact ((pushes_opcodes before outer .empty).append (.cons (.openIf outer before) hyes)).append
      (.single (.openElse outer before yes))
  | doLoop before condition =>
    have hcondition := pushes_opcodes condition (.whileLoop before :: outer) .empty
    exact ((pushes_opcodes before outer .empty).append
      (.cons (.openWhile outer before) hcondition)).append
      (.single (.openDo outer before condition))

theorem pushes_spelled (frames : List Frame) :
    Pushes ⟨[], .empty⟩ (Frame.spelled frames) ⟨frames, .empty⟩ := by
  induction frames with
  | nil => exact .nil _
  | cons f outer ih =>
    rw [Frame.spelled, List.append_assoc]
    exact ih.append (pushes_frame f outer)

/-- A draft grows from nothing by its opcodes. -/
theorem pushes_self (d : Draft) : Pushes ⟨[], .empty⟩ d.opcodes d :=
  (pushes_spelled d.frames).append (pushes_opcodes d.here d.frames .empty)

/-- **Code with open blocks has one reading.** -/
theorem opcodes_injective : Function.Injective Draft.opcodes := by
  intro d d' h
  have hd := pushes_self d
  rw [h] at hd
  exact hd.unique (pushes_self d')

end Draft

/-! ## Closing words -/

/-- The words that a block still needs. -/
def Frame.closing : Frame → List Opcode
  | whileLoop _ => [.doLoop, .endBlock]
  | _ => [.endBlock]

/-- **Every draft can be completed.** -/
theorem Draft.exists_pushes_closing (frames : List Frame) (here : Code) :
    ∃ c, Pushes ⟨frames, here⟩ (frames.flatMap Frame.closing) ⟨[], c⟩ := by
  induction frames generalizing here with
  | nil => exact ⟨here, .nil _⟩
  | cons f outer ih =>
    rw [List.flatMap_cons]
    cases f with
    | ifBlock before =>
      obtain ⟨c, hc⟩ := ih (before ++ .branch here .empty)
      exact ⟨c, .cons (.closeIf outer before here) hc⟩
    | elseBlock before yes =>
      obtain ⟨c, hc⟩ := ih (before ++ .choice yes here .empty)
      exact ⟨c, .cons (.closeElse outer before yes here) hc⟩
    | whileLoop before =>
      obtain ⟨c, hc⟩ := ih (before ++ .loop here .empty .empty)
      exact ⟨c, .cons (.openDo outer before here) (.cons (.closeLoop outer before here .empty) hc)⟩
    | doLoop before condition =>
      obtain ⟨c, hc⟩ := ih (before ++ .loop condition here .empty)
      exact ⟨c, .cons (.closeLoop outer before condition here) hc⟩

/-! ## Open blocks -/

/-- The words that opened the blocks of an assembly are those that wait in its draft. -/
theorem Represents.openers_eq {a : Assembly} {d : Draft} {ops : List Operation}
    (h : Represents a d ops) : a.openers = d.frames.map Frame.word := by
  have hblocks := h.blocks
  unfold Assembly.openers
  generalize a.blocks = blocks at hblocks
  generalize d.frames = frames at hblocks
  induction frames generalizing blocks with
  | nil =>
    cases blocks with
    | nil => rfl
    | cons => exact hblocks.elim
  | cons f outer ih =>
    obtain ⟨location, rest, rfl, hrest⟩ := hblocks.exists_cons
    rw [List.map_cons, List.map_cons, ih rest hrest]
    cases f <;> rfl

end StackLang
