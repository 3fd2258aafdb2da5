import StackLang.Location
import StackLang.Opcode

/-!
# Operations

An operation is one step of a program: an opcode, the literal it pushes if it pushes one, the
address it jumps to if it is a control operation, and the place in the source it came from.
-/

namespace StackLang

/-- The literal of a push. -/
inductive Immediate
  | int (value : Int64)
  /-- the text between the quotes, as written -/
  | str (text : String)
deriving DecidableEq

/-- One step of a program. -/
structure Operation where
  opcode : Opcode
  immediate : Option Immediate
  jump : Option Nat
  location : Location
deriving DecidableEq

namespace Operation

/-- An operation that pushes nothing and jumps nowhere. -/
def plain (opcode : Opcode) (location : Location) : Operation :=
  ⟨opcode, none, none, location⟩

/-- The push of an integer literal. -/
def pushInt (value : Int64) (location : Location) : Operation :=
  ⟨.pushInt, some (.int value), none, location⟩

/-- The push of a string literal. -/
def pushStr (text : String) (location : Location) : Operation :=
  ⟨.pushStr, some (.str text), none, location⟩

end Operation

end StackLang
