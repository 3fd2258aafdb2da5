import StackLang.Json.Layout
import StackLang.Json.Reader
import StackLang.Program
import StackLang.Token

/-!
# Programs as JSON

The form in which a program is handed to another tool, and the parts of it. A record is an object
with one member for each of its fields; an absent literal or jump is `null`. An opcode is its tag,
and a value that comes in several kinds is an object whose only key names the kind.

**Reading is more generous than writing.** The members of a record may come in any order, with
others among them that are not looked at; a literal or a jump may be missing. A record may also be
an array of all its fields in order, and an opcode an object whose only key is the tag and whose
value is `null`. But no field may be given twice, and integers have to be in range.
-/

namespace StackLang

/-! ## Shapes -/

namespace Json

/-- The fields of a record with the given names. A field that an object does not have is absent;
other members of the object are not looked at, but their keys have to be texts. -/
def fields? (names : List String) : Json → Option (List (Option Json))
  | .leaf _ => none
  | .array items => if items.length = names.length then some (items.map some) else none
  | .object members => do
    let named ← members.mapM fun m => (text? m.1).map (·, m.2)
    names.mapM fun name =>
      match named.filter (·.1 = name) with
      | [] => some none
      | [m] => some (some m.2)
      | _ => none

/-- The kind of a value and the value itself, from an object with one member. -/
def variant? : Json → Option (String × Json)
  | .object [m] => (text? m.1).map (·, m.2)
  | _ => none

/-- A text. -/
def toText? : Json → Option String
  | .leaf (.string codes) => text? codes
  | _ => none

/-- An integer. -/
def toInt? : Json → Option Int
  | .leaf (.number spelling) => integer? spelling
  | _ => none

/-- A signed integer of 64 bits. -/
def toInt64? (v : Json) : Option Int64 :=
  v.toInt?.bind Decimal.int64?

/-- An unsigned integer of 64 bits. -/
def toNat? (v : Json) : Option Nat :=
  v.toInt?.bind fun n => if 0 ≤ n ∧ n.toNat < UInt64.size then some n.toNat else none

/-- An optional field: absent, `null`, or a value. -/
def toOption? {α : Type} (decode : Json → Option α) : Option Json → Option (Option α)
  | none => some none
  | some (.leaf .null) => some none
  | some v => (decode v).map some

end Json

/-! ## Opcodes -/

/-- The name of an opcode in JSON. -/
def Opcode.tag : Opcode → String
  | pushInt => "PushInt"
  | pushStr => "PushStr"
  | plus => "Plus"
  | minus => "Minus"
  | mul => "Mul"
  | divMod => "DivMod"
  | equal => "Equal"
  | notEqual => "NotEqual"
  | greater => "Greater"
  | less => "Less"
  | greaterEqual => "GreaterEqual"
  | lessEqual => "LessEqual"
  | dump => "Dump"
  | syscall3 => "Syscall3"
  | dup => "Dup"
  | twoDup => "TwoDup"
  | drop => "Drop"
  | swap => "Swap"
  | copySecond => "Over"
  | mem => "Mem"
  | load => "Load"
  | store => "Store"
  | ifBlock => "If"
  | elseBlock => "Else"
  | endBlock => "End"
  | whileLoop => "While"
  | doLoop => "Do"
  | macroWord => "Macro"

/-- The opcode with a given tag. -/
def Opcode.ofTag? (tag : String) : Option Opcode :=
  Opcode.all.find? (·.tag = tag)

theorem Opcode.ofTag?_tag (o : Opcode) : Opcode.ofTag? o.tag = some o := by
  cases o <;> decide

/-! ## Writing -/

def Location.toJson (l : Location) : Json :=
  .ofMembers [("file", .ofText l.file), ("row", .ofInt l.row)]

def Opcode.toJson (o : Opcode) : Json :=
  .ofText o.tag

def Immediate.toJson : Immediate → Json
  | int value => .ofMembers [("Int", .ofInt value.toInt)]
  | str text => .ofMembers [("Str", .ofText text)]

def Operation.toJson (op : Operation) : Json :=
  .ofMembers
    [("opcode", op.opcode.toJson), ("immediate", .ofOption Immediate.toJson op.immediate),
      ("jump", .ofOption (fun target : Nat => .ofInt target) op.jump),
      ("location", op.location.toJson)]

def Program.toJson (p : Program) : Json :=
  .ofMembers [("operations", .array (p.operations.toList.map Operation.toJson))]

/-! ## Reading -/

def Location.ofJson? (v : Json) : Option Location := do
  match ← v.fields? ["file", "row"] with
  | [some file, some row] => some ⟨← file.toText?, ← row.toNat?⟩
  | _ => none

def Opcode.ofJson? (v : Json) : Option Opcode :=
  match v.toText? with
  | some tag => Opcode.ofTag? tag
  | none =>
    match v.variant? with
    | some (tag, .leaf .null) => Opcode.ofTag? tag
    | _ => none

def Immediate.ofJson? (v : Json) : Option Immediate := do
  match ← v.variant? with
  | ("Int", value) => value.toInt64?.map .int
  | ("Str", text) => text.toText?.map .str
  | _ => none

def Word.ofJson? (v : Json) : Option Word := do
  match ← v.variant? with
  | ("IntLiteral", value) => value.toInt64?.map .intLiteral
  | ("StringLiteral", text) => text.toText?.map .stringLiteral
  | ("Identifier", name) => name.toText?.map .identifier
  | _ => none

def Token.ofJson? (v : Json) : Option Token := do
  match ← v.fields? ["location", "word"] with
  | [some location, some word] => some ⟨← Location.ofJson? location, ← Word.ofJson? word⟩
  | _ => none

def Operation.ofJson? (v : Json) : Option Operation := do
  match ← v.fields? ["opcode", "immediate", "jump", "location"] with
  | [some opcode, immediate, jump, some location] =>
    some ⟨← Opcode.ofJson? opcode, ← Json.toOption? Immediate.ofJson? immediate,
      ← Json.toOption? Json.toNat? jump, ← Location.ofJson? location⟩
  | _ => none

def Program.ofJson? (v : Json) : Option Program := do
  match ← v.fields? ["operations"] with
  | [some (.array items)] => (items.mapM Operation.ofJson?).map fun ops => ⟨ops.toArray⟩
  | _ => none

end StackLang
