import StackLang.Operation

/-!
# Programs

A program is a sequence of operations. The address of an operation is its position, so appending
never moves an operation, and an address equal to the length is just past the end.
-/

namespace StackLang

/-- Operations in address order. -/
structure Program where
  operations : Array Operation
deriving DecidableEq

namespace Program

/-- The program without operations. -/
def empty : Program :=
  ⟨#[]⟩

/-- The number of operations. -/
def size (p : Program) : Nat :=
  p.operations.size

/-- The operation at an address. -/
def get? (p : Program) (addr : Nat) : Option Operation :=
  p.operations[addr]?

/-- Append an operation; its address is the old size. -/
def push (p : Program) (op : Operation) : Program :=
  ⟨p.operations.push op⟩

/-- Set or clear the jump of the operation at `addr`. An address outside the program changes
nothing. -/
def setJump (p : Program) (addr : Nat) (jump : Option Nat) : Program :=
  ⟨p.operations.modify addr fun op => { op with jump }⟩

@[simp] theorem size_empty : empty.size = 0 := rfl

@[simp] theorem size_push (p : Program) (op : Operation) : (p.push op).size = p.size + 1 := by
  simp [size, push]

@[simp] theorem size_setJump (p : Program) (addr : Nat) (jump : Option Nat) :
    (p.setJump addr jump).size = p.size := by
  simp [size, setJump]

/-- The operation just appended is found at the old size, and all others where they were. -/
theorem get?_push (p : Program) (op : Operation) (addr : Nat) :
    (p.push op).get? addr = if addr = p.size then some op else p.get? addr :=
  Array.getElem?_push

/-- Setting a jump touches the operation at that address alone. -/
theorem get?_setJump (p : Program) (addr : Nat) (jump : Option Nat) (i : Nat) :
    (p.setJump addr jump).get? i =
      if addr = i then (p.get? i).map fun op => { op with jump } else p.get? i := by
  simp [get?, setJump, Array.getElem?_modify]

end Program

end StackLang
