import StackLang.Program

/-!
# Nested code

What the opcodes of a program spell when its blocks are properly nested:

    code ::= (nothing)
           | o code                               with `o` no control word
           | `if` code `end` code
           | `if` code `else` code `end` code
           | `while` code `do` code `end` code

A tree of type `Code` is a derivation in this grammar. It spells a list of opcodes (`opcodes`),
and it dictates where each of them jumps once the first has an address (`jumps`).

Two derivations can be put one after the other (`append`); opcodes and jumps follow suit, the
jumps of the second part being those of code that starts where the first part ends.
-/

namespace StackLang

/-- True of the words that build control structures. -/
def Opcode.isControl : Opcode → Bool
  | ifBlock | elseBlock | endBlock | whileLoop | doLoop => true
  | _ => false

/-- An opcode that neither builds a control structure nor starts a definition. -/
structure PlainOpcode where
  opcode : Opcode
  notControl : opcode.isControl = false
  notMacro : opcode ≠ .macroWord
deriving DecidableEq

/-- A derivation of properly nested code. -/
inductive Code
  | empty
  | plain (o : PlainOpcode) (rest : Code)
  /-- `if body end rest` -/
  | branch (body rest : Code)
  /-- `if yes else no end rest` -/
  | choice (yes no rest : Code)
  /-- `while condition do body end rest` -/
  | loop (condition body rest : Code)
deriving DecidableEq

namespace Code

/-- The opcodes that a derivation spells. -/
def opcodes : Code → List Opcode
  | empty => []
  | plain o rest => o.opcode :: rest.opcodes
  | branch body rest => .ifBlock :: (body.opcodes ++ .endBlock :: rest.opcodes)
  | choice yes no rest =>
    .ifBlock :: (yes.opcodes ++ .elseBlock :: (no.opcodes ++ .endBlock :: rest.opcodes))
  | loop condition body rest =>
    .whileLoop :: (condition.opcodes ++ .doLoop :: (body.opcodes ++ .endBlock :: rest.opcodes))

/-- The number of opcodes. -/
def size : Code → Nat
  | empty => 0
  | plain _ rest => rest.size + 1
  | branch body rest => body.size + rest.size + 2
  | choice yes no rest => yes.size + no.size + rest.size + 3
  | loop condition body rest => condition.size + body.size + rest.size + 3

/-- The jump of each opcode, in order, when the first of them is at the address `base`:

- an `if` with an `else` jumps to just after the `else`, an `if` without one to its `end`;
- an `else` jumps to its `end`, and the `end` of both kinds of `if` to just after itself;
- a `do` jumps to just after the `end` of its loop, and that `end` to the `while`;
- nothing else jumps. -/
def jumps (base : Nat) : Code → List (Option Nat)
  | empty => []
  | plain _ rest => none :: rest.jumps (base + 1)
  | branch body rest =>
    let close := base + 1 + body.size
    some close :: (body.jumps (base + 1) ++ some (close + 1) :: rest.jumps (close + 1))
  | choice yes no rest =>
    let middle := base + 1 + yes.size
    let close := middle + 1 + no.size
    some (middle + 1) :: (yes.jumps (base + 1) ++
      some close :: (no.jumps (middle + 1) ++ some (close + 1) :: rest.jumps (close + 1)))
  | loop condition body rest =>
    let middle := base + 1 + condition.size
    let close := middle + 1 + body.size
    none :: (condition.jumps (base + 1) ++
      some (close + 1) :: (body.jumps (middle + 1) ++ some base :: rest.jumps (close + 1)))

@[simp] theorem length_opcodes (c : Code) : c.opcodes.length = c.size := by
  induction c with
  | empty => rfl
  | plain o rest ih => simp [opcodes, size, ih]
  | branch body rest ihb ihr => simp [opcodes, size, ihb, ihr]; omega
  | choice yes no rest ihy ihn ihr => simp [opcodes, size, ihy, ihn, ihr]; omega
  | loop condition body rest ihc ihb ihr => simp [opcodes, size, ihc, ihb, ihr]; omega

@[simp] theorem length_jumps (c : Code) (base : Nat) : (c.jumps base).length = c.size := by
  induction c generalizing base with
  | empty => rfl
  | plain o rest ih => simp [jumps, size, ih]
  | branch body rest ihb ihr => simp [jumps, size, ihb, ihr]; omega
  | choice yes no rest ihy ihn ihr => simp [jumps, size, ihy, ihn, ihr]; omega
  | loop condition body rest ihc ihb ihr => simp [jumps, size, ihc, ihb, ihr]; omega

/-- No opcode of nested code starts a definition. -/
theorem macroWord_notMem_opcodes (c : Code) : Opcode.macroWord ∉ c.opcodes := by
  induction c with
  | empty => exact List.not_mem_nil
  | plain o rest ih => simp [opcodes, ih, o.notMacro.symm]
  | branch body rest ihb ihr => simp [opcodes, ihb, ihr]
  | choice yes no rest ihy ihn ihr => simp [opcodes, ihy, ihn, ihr]
  | loop condition body rest ihc ihb ihr => simp [opcodes, ihc, ihb, ihr]

/-! ## One after the other -/

/-- The derivation of `c` followed by that of `d`. -/
def append : Code → Code → Code
  | empty, d => d
  | plain o rest, d => plain o (rest.append d)
  | branch body rest, d => branch body (rest.append d)
  | choice yes no rest, d => choice yes no (rest.append d)
  | loop condition body rest, d => loop condition body (rest.append d)

instance : Append Code := ⟨append⟩

@[simp] theorem empty_append (d : Code) : empty ++ d = d := rfl

@[simp] theorem plain_append (o : PlainOpcode) (rest d : Code) :
    plain o rest ++ d = plain o (rest ++ d) := rfl

@[simp] theorem branch_append (body rest d : Code) :
    branch body rest ++ d = branch body (rest ++ d) := rfl

@[simp] theorem choice_append (yes no rest d : Code) :
    choice yes no rest ++ d = choice yes no (rest ++ d) := rfl

@[simp] theorem loop_append (condition body rest d : Code) :
    loop condition body rest ++ d = loop condition body (rest ++ d) := rfl

@[simp] theorem append_empty (c : Code) : c ++ empty = c := by
  induction c <;> simp_all

theorem append_assoc (c d e : Code) : c ++ d ++ e = c ++ (d ++ e) := by
  induction c <;> simp_all

@[simp] theorem opcodes_append (c d : Code) : (c ++ d).opcodes = c.opcodes ++ d.opcodes := by
  induction c <;> simp_all [opcodes]

/-- The jumps of the second part are those of code that starts where the first part ends. -/
theorem jumps_append (c d : Code) {base next : Nat} (h : next = base + c.size) :
    (c ++ d).jumps base = c.jumps base ++ d.jumps next := by
  induction c generalizing base with
  | empty => rw [h]; rfl
  | plain o rest ih =>
    rw [plain_append, jumps, jumps, ih (by rw [h, size]; omega), List.cons_append]
  | branch body rest ihb ihr =>
    rw [branch_append, jumps, jumps, ihr (by rw [h, size]; omega)]
    simp only [List.cons_append, List.append_assoc]
  | choice yes no rest ihy ihn ihr =>
    rw [choice_append, jumps, jumps, ihr (by rw [h, size]; omega)]
    simp only [List.cons_append, List.append_assoc]
  | loop condition body rest ihc ihb ihr =>
    rw [loop_append, jumps, jumps, ihr (by rw [h, size]; omega)]
    simp only [List.cons_append, List.append_assoc]

/-- **Jumps stay inside**: no jump of code leads outside of it, its end included. -/
theorem mem_jumps {c : Code} {base target : Nat} (h : some target ∈ c.jumps base) :
    base ≤ target ∧ target ≤ base + c.size := by
  induction c generalizing base with
  | empty => cases h
  | plain o rest ih =>
    simp only [jumps, List.mem_cons, reduceCtorEq, false_or] at h
    have := ih h
    simp only [size]
    omega
  | branch body rest ihb ihr =>
    simp only [jumps, List.mem_cons, List.mem_append, Option.some.injEq] at h
    simp only [size]
    rcases h with rfl | h | rfl | h
    · omega
    · have := ihb h
      omega
    · omega
    · have := ihr h
      omega
  | choice yes no rest ihy ihn ihr =>
    simp only [jumps, List.mem_cons, List.mem_append, Option.some.injEq] at h
    simp only [size]
    rcases h with rfl | h | rfl | h | rfl | h
    · omega
    · have := ihy h
      omega
    · omega
    · have := ihn h
      omega
    · omega
    · have := ihr h
      omega
  | loop condition body rest ihc ihb ihr =>
    simp only [jumps, List.mem_cons, List.mem_append, Option.some.injEq, reduceCtorEq,
      false_or] at h
    simp only [size]
    rcases h with h | rfl | h | rfl | h
    · have := ihc h
      omega
    · omega
    · have := ihb h
      omega
    · omega
    · have := ihr h
      omega

end Code

end StackLang
