import StackLang.Program.Check
import StackLang.Text.Quoted

/-!
# Listings

A listing shows a program to people, one line for each operation: its address, its opcode, then
its literal and its jump if it has them. The dump is the listing in a frame.
-/

namespace StackLang

/-- An integer in decimal, or a string between quotes. -/
def Immediate.text : Immediate → String
  | int value => String.ofList (Decimal.text value.toInt)
  | str text => String.ofList (Text.quote text.toList)

/-- The opcode, a space and the literal, an arrow and the jump. -/
def Operation.text (op : Operation) : String :=
  op.opcode.text
    ++ (match op.immediate with
      | some i => " " ++ i.text
      | none => "")
    ++ (match op.jump with
      | some target => " -> " ++ Nat.repr target
      | none => "")

namespace Program

/-- One line for each operation. -/
def listing (p : Program) : List String :=
  p.operations.toList.zipIdx.map fun (op, addr) => addrText addr ++ ": " ++ op.text

/-- A line across the page. -/
def rule (c : Char) : String :=
  String.ofList (List.replicate 59 c)

/-- The lines of a dump; an empty line ends it. -/
def dumpLines (p : Program) : List String :=
  [rule '═', String.ofList (List.replicate 20 ' ') ++ "IR DUMP", rule '═',
    "Operations: " ++ Nat.repr p.size, rule '─'] ++ p.listing ++ [rule '═', ""]

/-- The listing in a frame, as it is printed. -/
def dump (p : Program) : String :=
  String.join (p.dumpLines.map (· ++ "\n"))

end Program

end StackLang
