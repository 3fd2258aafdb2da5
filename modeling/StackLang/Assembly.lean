import StackLang.CompileError
import StackLang.Program

/-!
# Assembling control structures

Operations are appended one by one. The stack of open blocks tells a control word which block it
continues or closes, and as soon as the target of a jump is known the jump is set:

| word    | innermost open block | jump set                                     | block then open |
|---------|----------------------|----------------------------------------------|-----------------|
| `if`    | any                  |                                              | an `if`         |
| `else`  | an `if`              | `if`: just after the `else`                  | an `else`       |
| `while` | any                  |                                              | a `while`       |
| `do`    | a `while`            |                                              | a `do`          |
| `end`   | an `if` or `else`    | that word: the `end`; `end`: just after it   |                 |
| `end`   | a `do`               | `do`: just after the `end`; `end`: the loop  |                 |

Any other combination is an error at the control word, and every block has to be closed in the
end.
-/

namespace StackLang

/-- The control word that opened a block, or reopened it in the middle. -/
inductive Opener
  | ifBlock
  | elseBlock
  | whileLoop
  /-- the body of the loop whose `while` is at `start` -/
  | doLoop (start : Nat)
deriving DecidableEq

/-- The opcode of the control word. -/
def Opener.opcode : Opener → Opcode
  | ifBlock => .ifBlock
  | elseBlock => .elseBlock
  | whileLoop => .whileLoop
  | doLoop _ => .doLoop

/-- A block that waits for its next control word. -/
structure OpenBlock where
  opener : Opener
  /-- the address of the opening word -/
  addr : Nat
  location : Location
deriving DecidableEq

/-- A program under construction. -/
structure Assembly where
  program : Program
  /-- innermost first -/
  blocks : List OpenBlock
deriving DecidableEq

namespace Assembly

/-- Nothing appended and nothing open. -/
def empty : Assembly :=
  ⟨.empty, []⟩

/-- Append an operation and set the jumps whose targets it settles. -/
def place : Assembly → Operation → Except CompileError Assembly
  | ⟨program, blocks⟩, op =>
    let here := program.size
    match op.opcode with
    | .ifBlock => .ok ⟨program.push op, ⟨.ifBlock, here, op.location⟩ :: blocks⟩
    | .whileLoop => .ok ⟨program.push op, ⟨.whileLoop, here, op.location⟩ :: blocks⟩
    | .elseBlock =>
      match blocks with
      | [] => .error (.noOpenBlock op.location .elseBlock)
      | ⟨.ifBlock, addr, _⟩ :: outer =>
        .ok ⟨(program.setJump addr (some (here + 1))).push op,
          ⟨.elseBlock, here, op.location⟩ :: outer⟩
      | _ :: _ => .error (.elseWithoutIf op.location)
    | .doLoop =>
      match blocks with
      | [] => .error (.noOpenBlock op.location .doLoop)
      | ⟨.whileLoop, addr, _⟩ :: outer =>
        .ok ⟨program.push op, ⟨.doLoop addr, here, op.location⟩ :: outer⟩
      | _ :: _ => .error (.doWithoutWhile op.location)
    | .endBlock =>
      match blocks with
      | [] => .error (.noOpenBlock op.location .endBlock)
      | ⟨.ifBlock, addr, _⟩ :: outer | ⟨.elseBlock, addr, _⟩ :: outer =>
        .ok ⟨(program.setJump addr (some here)).push { op with jump := some (here + 1) }, outer⟩
      | ⟨.doLoop start, addr, _⟩ :: outer =>
        .ok ⟨(program.setJump addr (some (here + 1))).push { op with jump := some start }, outer⟩
      | ⟨.whileLoop, _, _⟩ :: _ => .error (.endOfLoopHead op.location)
    | _ => .ok ⟨program.push op, blocks⟩

/-- The finished program, unless a block is still open; the innermost one is reported. -/
def finish (a : Assembly) : Except CompileError Program :=
  match a.blocks with
  | [] => .ok a.program
  | b :: _ => .error (.neverClosed b.location b.opener.opcode)

end Assembly

end StackLang
