import StackLang.Proofs.Assembly.Blocks
import StackLang.Proofs.Buffer

/-!
# Assembling with addresses

A buffer keeps a program and the addresses of its open blocks. An assembly keeps more about
them, and sets the jump of a `do` only when its loop is closed.

**Theorem (`assemble_eq`).** This makes no difference. Assembling with the addresses of a tidy
assembly, in the program in which the open loops are held, agrees with placing, errors included.
-/

namespace StackLang.Buffer

open Assembly

variable {a a' : Assembly} {op : Operation} {e : CompileError}

/-- The word of the innermost block is found when the next operation has been appended. -/
theorem exists_get?_push {program : Program} {b : OpenBlock} {outer : List OpenBlock}
    (ha : Tidy ⟨program, b :: outer⟩) (op : Operation) :
    ∃ opening, ((withLoops program (b :: outer)).push op).get? b.addr = some opening ∧
      opening.opcode = b.opener.opcode ∧
        ∀ start, b.opener = .doLoop start → opening.jump = some start := by
  obtain ⟨opening, hopening, hopcode, -, hjump⟩ := ha.exists_held List.mem_cons_self
  refine ⟨opening, ?_, hopcode, hjump⟩
  have hlt : b.addr < (withLoops program (b :: outer)).size := by
    rw [size_withLoops]
    exact ha.addr_lt List.mem_cons_self
  rw [Program.get?_push, if_neg (Nat.ne_of_lt hlt)]
  exact hopening

/-- The jump of the innermost block can be set after the next operation has been appended. -/
theorem withLoops_patch {program : Program} {b : OpenBlock} {outer : List OpenBlock}
    (ha : Tidy ⟨program, b :: outer⟩) (op : Operation) (jump : Option Nat) :
    withLoops ((program.setJump b.addr jump).push op) outer =
      ((withLoops program outer).push op).setJump b.addr jump := by
  have houter : ∀ c ∈ outer, c.addr < (program.setJump b.addr jump).size := by
    intro c hc
    rw [Program.size_setJump]
    exact ha.addr_lt (List.mem_cons_of_mem b hc)
  have hlt : b.addr < (withLoops program outer).size := by
    rw [size_withLoops]
    exact ha.addr_lt List.mem_cons_self
  rw [withLoops_push _ op houter, withLoops_setJump program jump (ha.addr_ne rfl),
    Program.setJump_push_of_lt _ op jump hlt]

/-- What can be placed is assembled. -/
theorem assemble_of_places (ha : a.Tidy) (h : Places a op a') :
    assemble a.held a.addresses op = .ok (a'.held, a'.addresses) := by
  have hlt (b : OpenBlock) (hb : b ∈ a.blocks) := ha.addr_lt hb
  cases h with
  | plain program blocks hop =>
    rw [held, held, withLoops_push program op hlt]
    unfold assemble
    cases hword : op.opcode with
    | ifBlock | elseBlock | endBlock | whileLoop | doLoop => rw [hword] at hop; cases hop
    | _ => rfl
  | openIf program blocks hop | openWhile program blocks hop =>
    have hheld := withLoops_push program op hlt
    simp only [assemble, held, addresses, hop, size_withLoops, withLoops, hheld, List.map_cons]
  | openElse program outer addr location hop =>
    obtain ⟨opening, hopening, hopcode, -⟩ := exists_get?_push ha op
    simp only [withLoops] at hopening
    have hpatch := withLoops_patch ha op (some (program.size + 1))
    simp only [assemble, held, addresses, hop, List.map_cons, withLoops, hopening, hopcode,
      Opener.opcode, if_true, size_withLoops, hpatch]
  | openDo program outer addr location hop =>
    obtain ⟨opening, hopening, hopcode, -⟩ := exists_get?_push ha op
    simp only [withLoops] at hopening
    have hheld := withLoops_push program op fun b hb => hlt b (List.mem_cons_of_mem _ hb)
    simp only [assemble, held, addresses, hop, List.map_cons, withLoops, hopening, hopcode,
      Opener.opcode, if_true, size_withLoops, hheld]
  | closeIf program outer addr location hop | closeElse program outer addr location hop =>
    obtain ⟨opening, hopening, hopcode, -⟩ := exists_get?_push ha op
    simp only [withLoops] at hopening
    have hpatch := withLoops_patch ha { op with jump := some (program.size + 1) }
      (some program.size)
    have hne : addr ≠ program.size := Nat.ne_of_lt (hlt _ List.mem_cons_self)
    have hself := Program.setJump_push_self (withLoops program outer) op (some (program.size + 1))
    rw [size_withLoops] at hself
    simp only [hop] at hpatch hself
    simp only [assemble, held, addresses, hop, List.map_cons, withLoops, hopening, hopcode,
      Opener.opcode, size_withLoops, hpatch, Program.setJump_comm _ _ _ hne, hself]
  | closeLoop program outer start addr location hop =>
    obtain ⟨opening, hopening, hopcode, hjump⟩ := exists_get?_push ha op
    simp only [withLoops] at hopening
    have hpatch := withLoops_patch ha { op with jump := some start } (some (program.size + 1))
    have hself := Program.setJump_push_self
      ((withLoops program outer).setJump addr (some start)) op (some start)
    have haddr : addr < (withLoops program outer).size := by
      rw [size_withLoops]
      exact hlt _ List.mem_cons_self
    have hpush := Program.setJump_push_of_lt (withLoops program outer)
      { op with jump := some start } (some start) haddr
    rw [Program.size_setJump, size_withLoops] at hself
    simp only [hop] at hpatch hself hpush
    simp only [assemble, held, addresses, hop, List.map_cons, withLoops, hopening, hopcode,
      Opener.opcode, size_withLoops, Program.size_setJump, hpatch, hjump start rfl, hself, ← hpush,
      Program.setJump_setJump]

/-- What cannot be placed is refused with the same error. -/
theorem assemble_of_misfit (ha : a.Tidy) (h : Misfit op a.openers e) :
    assemble a.held a.addresses op = .error (.failed e) := by
  obtain ⟨program, blocks⟩ := a
  cases blocks with
  | nil =>
    cases h with
    | noBlock h => rcases h with h | h | h <;> simp only [assemble, addresses, List.map_nil, h]
  | cons block outer =>
    obtain ⟨opening, hopening, hopcode, -⟩ := exists_get?_push ha op
    generalize hopeners : openers ⟨program, block :: outer⟩ = words at h
    cases h with
    | noBlock => cases hopeners
    | elseWithoutIf h hword | doWithoutWhile h hword =>
      obtain ⟨rfl, -⟩ := List.cons.inj hopeners
      simp only [assemble, held, addresses, List.map_cons, h, hopening, hopcode, if_neg hword]
    | endOfLoopHead h =>
      obtain ⟨hword, -⟩ := List.cons.inj hopeners
      simp only [assemble, held, addresses, List.map_cons, h, hopening, hopcode, hword]
      rfl

/-- **Assembling with addresses agrees with placing.** -/
theorem assemble_eq (ha : a.Tidy) (op : Operation) : assemble a.held a.addresses op =
    match a.place op with
    | .error e => .error (.failed e)
    | .ok a' => .ok (a'.held, a'.addresses) := by
  split
  · next e h => exact assemble_of_misfit ha (place_eq_error_iff.1 h)
  · next a' h => exact assemble_of_places ha (place_eq_ok_iff.1 h)

end StackLang.Buffer
