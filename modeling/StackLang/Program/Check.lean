import StackLang.Decimal
import StackLang.Program

/-!
# Checking programs

What the stages after the compiler rely on: control operations jump, to an address of the program
or just past its end; other operations, `while` among them, do not jump; and literal pushes, and
they alone, carry a literal of their kind. The check lists every operation that breaks one of
these rules, in address order, and for one operation the broken jump before the broken literal.
-/

namespace StackLang

/-- A rule that an operation breaks. -/
inductive Fault
  /-- a control operation without a jump -/
  | unresolvedJump
  /-- a jump past the end of a program of `size` operations -/
  | jumpOutOfRange (target size : Nat)
  /-- a jump of an operation that is no control operation -/
  | unexpectedJump
  /-- a literal that is missing, of the wrong kind, or not wanted -/
  | badImmediate
deriving DecidableEq

/-- An operation of a program and a rule that it breaks. -/
structure Violation where
  addr : Nat
  opcode : Opcode
  fault : Fault
deriving DecidableEq

/-- An address, padded with zeros to four digits. -/
def addrText (addr : Nat) : String :=
  String.ofList ((Decimal.digits addr).leftpad 4 '0')

/-- The text of a violation. -/
def Violation.text (v : Violation) : String :=
  addrText v.addr ++ ": " ++
    match v.fault with
    | .unresolvedJump => "`" ++ v.opcode.text ++ "` has no jump target"
    | .jumpOutOfRange target size =>
      "jump target " ++ Nat.repr target ++ " outside program of " ++ Nat.repr size ++ " operations"
    | .unexpectedJump => "`" ++ v.opcode.text ++ "` must not have a jump target"
    | .badImmediate => "bad immediate for `" ++ v.opcode.text ++ "`"

namespace Operation

/-- The rule on jumps that an operation breaks in a program of `size` operations. -/
def jumpFault? (op : Operation) (size : Nat) : Option Fault :=
  match op.opcode.hasJump, op.jump with
  | true, none => some .unresolvedJump
  | true, some target => if size < target then some (.jumpOutOfRange target size) else none
  | false, some _ => some .unexpectedJump
  | false, none => none

/-- The rule on literals that an operation breaks. -/
def immediateFault? (op : Operation) : Option Fault :=
  match op.opcode, op.immediate with
  | .pushInt, some (.int _) => none
  | .pushStr, some (.str _) => none
  | .pushInt, _ => some .badImmediate
  | .pushStr, _ => some .badImmediate
  | _, none => none
  | _, some _ => some .badImmediate

/-- All rules that an operation breaks. -/
def faults (op : Operation) (size : Nat) : List Fault :=
  (op.jumpFault? size).toList ++ op.immediateFault?.toList

end Operation

/-- Every violation in a program. -/
def Program.violations (p : Program) : List Violation :=
  p.operations.toList.zipIdx.flatMap fun (op, addr) =>
    (op.faults p.size).map fun fault => ⟨addr, op.opcode, fault⟩

end StackLang
