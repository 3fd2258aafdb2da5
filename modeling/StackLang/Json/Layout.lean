import StackLang.Json.Lexeme

/-!
# Writing JSON

A value is written over several lines: every item of an array and every member of an object
starts a line of its own, two spaces further in than the bracket or brace that opens it. Empty
arrays and objects take no line. In strings, quotes, backslashes and controls are escaped, in the
short form where there is one, and everything else stands as it is.
-/

namespace StackLang.Json

/-- One code point of a string. A surrogate cannot stand as it is. -/
def writeCode (n : Nat) : List Char :=
  match shortForms.find? (·.1 = n) with
  | some (_, e) => ['\\', e]
  | none =>
    if n < 0x20 ∨ !n.isValidChar then '\\' :: 'u' :: (Nat.toDigits 16 n).leftpad 4 '0'
    else [Char.ofNat n]

/-- A string between its quotes. -/
def writeString (codes : List Nat) : List Char :=
  '"' :: codes.flatMap writeCode ++ ['"']

/-- A value without parts. -/
def Leaf.write : Leaf → List Char
  | null => ['n', 'u', 'l', 'l']
  | bool true => ['t', 'r', 'u', 'e']
  | bool false => ['f', 'a', 'l', 's', 'e']
  | number spelling => spelling
  | string codes => writeString codes

/-- A line end, and the indentation of the next line. -/
def newLine (depth : Nat) : List Char :=
  '\n' :: List.replicate (2 * depth) ' '

mutual

/-- A value on lines of the given depth. -/
def write (depth : Nat) : Json → List Char
  | .leaf l => l.write
  | .array [] => ['[', ']']
  | .array (v :: vs) =>
    '[' :: newLine (depth + 1) ++ write (depth + 1) v ++ writeItems (depth + 1) vs
      ++ newLine depth ++ [']']
  | .object [] => ['\x7b', '\x7d']
  | .object ((k, v) :: ms) =>
    '\x7b' :: newLine (depth + 1) ++ writeString k ++ [':', ' '] ++ write (depth + 1) v
      ++ writeMembers (depth + 1) ms ++ newLine depth ++ ['\x7d']

/-- The items of an array after the first. -/
def writeItems (depth : Nat) : List Json → List Char
  | [] => []
  | v :: vs => ',' :: newLine depth ++ write depth v ++ writeItems depth vs

/-- The members of an object after the first. -/
def writeMembers (depth : Nat) : List (List Nat × Json) → List Char
  | [] => []
  | (k, v) :: ms =>
    ',' :: newLine depth ++ writeString k ++ [':', ' '] ++ write depth v ++ writeMembers depth ms

end

/-- The text of a value. -/
def text (v : Json) : String :=
  String.ofList (write 0 v)

end StackLang.Json
