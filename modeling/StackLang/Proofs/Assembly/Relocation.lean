import StackLang.Proofs.Assembly

/-!
# Relocation

A program can be put behind another one if the size of that one is added to all its jumps
(`Program.linkAfter`). An assembly can too, with its open blocks (`Assembly.relocate`).

**Theorem (`place_relocate`).** Placing an operation and relocating can be done in either order,
and so can finishing and relocating. Only addresses and sizes enter a jump, and all of them have
grown by the same number; which operations are refused does not depend on addresses at all.
-/

namespace StackLang

/-! ## Programs -/

/-- The operation with `n` added to its jump. -/
def Operation.shift (n : Nat) (op : Operation) : Operation :=
  { op with jump := op.jump.map (· + n) }

/-- The program with `n` added to all jumps. -/
def Program.shift (n : Nat) (p : Program) : Program :=
  ⟨p.operations.map (·.shift n)⟩

/-- The operations of `q` behind those of `p`, with their jumps moved along. -/
def Program.linkAfter (p q : Program) : Program :=
  ⟨p.operations ++ (q.shift p.size).operations⟩

theorem Operation.shift_of_jump {op : Operation} (h : op.jump = none) (n : Nat) :
    op.shift n = op := by
  rw [shift, h, Option.map_none, ← h]

namespace Program

variable (p q : Program)

@[simp] theorem size_linkAfter : (p.linkAfter q).size = p.size + q.size := by
  simp [linkAfter, shift, size]

@[simp] theorem linkAfter_empty : p.linkAfter .empty = p := by
  simp [linkAfter, shift, empty]

theorem prefix_linkAfter : p.operations.toList <+: (p.linkAfter q).operations.toList := by
  rw [linkAfter, Array.toList_append]
  exact List.prefix_append _ _

theorem linkAfter_push (op : Operation) :
    p.linkAfter (q.push op) = (p.linkAfter q).push (op.shift p.size) := by
  simp [linkAfter, shift, push]

/-- What is at an address behind `p` comes from `q`. -/
theorem get?_linkAfter (addr : Nat) : (p.linkAfter q).get? addr =
    if addr < p.size then p.get? addr
    else (q.get? (addr - p.size)).map (·.shift p.size) := by
  simp only [get?, linkAfter, shift, size, Array.getElem?_append, Array.getElem?_map]
  rfl

/-- Jumps are set as before, at the new addresses and to the new targets. -/
theorem linkAfter_setJump (addr target : Nat) :
    p.linkAfter (q.setJump addr (some target)) =
      (p.linkAfter q).setJump (addr + p.size) (some (target + p.size)) := by
  apply ext_get?
  intro i
  rw [get?_linkAfter, get?_setJump, get?_setJump, get?_linkAfter]
  by_cases hi : i < p.size
  · have hne : addr + p.size ≠ i := by omega
    simp only [if_pos hi, if_neg hne]
  · by_cases haddr : addr = i - p.size
    · have heq : addr + p.size = i := by omega
      simp only [if_neg hi, if_pos haddr, if_pos heq, Option.map_map]
      rfl
    · have hne : addr + p.size ≠ i := by omega
      simp only [if_neg hi, if_neg haddr, if_neg hne]

end Program

/-! ## Assemblies -/

/-- The opener with `n` added to the address of a loop. -/
def Opener.shift (n : Nat) : Opener → Opener
  | doLoop start => doLoop (start + n)
  | opener => opener

/-- The block with `n` added to its addresses. -/
def OpenBlock.shift (n : Nat) (b : OpenBlock) : OpenBlock :=
  { b with opener := b.opener.shift n, addr := b.addr + n }

@[simp] theorem Opener.opcode_shift (n : Nat) (opener : Opener) :
    (opener.shift n).opcode = opener.opcode := by
  cases opener <;> rfl

namespace Assembly

/-- The assembly behind the program `p`. -/
def relocate (p : Program) (a : Assembly) : Assembly :=
  ⟨p.linkAfter a.program, a.blocks.map (·.shift p.size)⟩

variable (p : Program) {a a' : Assembly} {op : Operation}

@[simp] theorem relocate_empty : relocate p .empty = ⟨p, []⟩ :=
  congrArg (Assembly.mk · []) p.linkAfter_empty

@[simp] theorem openers_relocate (a : Assembly) : (a.relocate p).openers = a.openers := by
  simp [openers, relocate, OpenBlock.shift, Function.comp_def]

/-- **What can be placed can be placed behind a program**, and the result is moved along. -/
theorem Places.relocate (hjump : op.jump = none) (h : Places a op a') :
    Places (a.relocate p) op (a'.relocate p) := by
  have hop := Operation.shift_of_jump hjump p.size
  have hsize (q : Program) : q.size + p.size = (p.linkAfter q).size := by
    rw [Program.size_linkAfter, Nat.add_comm]
  have hnext (q : Program) : q.size + 1 + p.size = (p.linkAfter q).size + 1 := by
    rw [← hsize, Nat.add_right_comm]
  cases h with
  | plain program blocks h =>
    simp only [Assembly.relocate, Program.linkAfter_push, hop]
    exact .plain _ _ h
  | openIf program blocks h =>
    simp only [Assembly.relocate, Program.linkAfter_push, hop, List.map_cons, OpenBlock.shift,
      Opener.shift, hsize]
    exact .openIf _ _ h
  | openWhile program blocks h =>
    simp only [Assembly.relocate, Program.linkAfter_push, hop, List.map_cons, OpenBlock.shift,
      Opener.shift, hsize]
    exact .openWhile _ _ h
  | openElse program outer addr location h =>
    simp only [Assembly.relocate, Program.linkAfter_push, Program.linkAfter_setJump, hop,
      List.map_cons, OpenBlock.shift, Opener.shift, hsize, hnext]
    exact .openElse _ _ _ _ h
  | openDo program outer addr location h =>
    simp only [Assembly.relocate, Program.linkAfter_push, hop, List.map_cons, OpenBlock.shift,
      Opener.shift, hsize]
    exact .openDo _ _ _ _ h
  | closeIf program outer addr location h =>
    simp only [Assembly.relocate, Program.linkAfter_push, Program.linkAfter_setJump,
      List.map_cons, OpenBlock.shift, Opener.shift, Operation.shift, Option.map_some, hsize, hnext]
    exact .closeIf _ _ _ _ h
  | closeElse program outer addr location h =>
    simp only [Assembly.relocate, Program.linkAfter_push, Program.linkAfter_setJump,
      List.map_cons, OpenBlock.shift, Opener.shift, Operation.shift, Option.map_some, hsize, hnext]
    exact .closeElse _ _ _ _ h
  | closeLoop program outer start addr location h =>
    simp only [Assembly.relocate, Program.linkAfter_push, Program.linkAfter_setJump,
      List.map_cons, OpenBlock.shift, Opener.shift, Operation.shift, Option.map_some, hnext]
    exact .closeLoop _ _ _ _ _ h

/-- **Placing and relocating commute.** -/
theorem place_relocate (hjump : op.jump = none) (a : Assembly) :
    (a.relocate p).place op = (a.place op).map (·.relocate p) := by
  cases h : a.place op with
  | ok a' => exact place_eq_ok_iff.2 ((place_eq_ok_iff.1 h).relocate p hjump)
  | error e =>
    refine place_eq_error_iff.2 ?_
    rw [openers_relocate]
    exact place_eq_error_iff.1 h

/-- **Finishing and relocating commute.** -/
theorem finish_relocate (a : Assembly) :
    (a.relocate p).finish = a.finish.map (p.linkAfter ·) := by
  obtain ⟨program, blocks⟩ := a
  cases blocks with
  | nil => rfl
  | cons block outer =>
    simp only [relocate, finish, List.map_cons, OpenBlock.shift, Opener.opcode_shift, Except.map]

end Assembly

end StackLang
