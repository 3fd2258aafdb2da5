/-!
# Opcodes and builtin words

An opcode is what one operation does: push a literal, apply one of the builtin words, or mark a
place in a control structure. Every opcode except the two literal pushes is written in a source
file as one builtin word, and the table of builtin words is the list of those opcodes.
-/

namespace StackLang

/-- What an operation does. -/
inductive Opcode
  /-- push an integer literal -/
  | pushInt
  /-- push a string literal -/
  | pushStr
  | plus
  | minus
  | mul
  /-- quotient and remainder -/
  | divMod
  | equal
  | notEqual
  | greater
  | less
  | greaterEqual
  | lessEqual
  /-- print and drop the top of the stack -/
  | dump
  | syscall3
  | dup
  | twoDup
  | drop
  | swap
  /-- copy the second item of the stack to the top -/
  | copySecond
  /-- push the base address of memory -/
  | mem
  /-- load a byte -/
  | load
  /-- store a byte -/
  | store
  | ifBlock
  | elseBlock
  | endBlock
  | whileLoop
  | doLoop
  /-- start a macro definition; no program holds it -/
  | macroWord
deriving DecidableEq

namespace Opcode

/-- Every opcode, in the order of declaration. -/
def all : List Opcode :=
  [pushInt, pushStr, plus, minus, mul, divMod, equal, notEqual, greater, less, greaterEqual,
   lessEqual, dump, syscall3, dup, twoDup, drop, swap, copySecond, mem, load, store, ifBlock,
   elseBlock, endBlock, whileLoop, doLoop, macroWord]

theorem mem_all (o : Opcode) : o ∈ all := by
  cases o <;> decide

/-- The source word of an opcode; literals have none. -/
def word? : Opcode → Option String
  | pushInt => none
  | pushStr => none
  | plus => some "+"
  | minus => some "-"
  | mul => some "*"
  | divMod => some "divmod"
  | equal => some "="
  | notEqual => some "!="
  | greater => some ">"
  | less => some "<"
  | greaterEqual => some ">="
  | lessEqual => some "<="
  | dump => some "."
  | syscall3 => some "syscall3"
  | dup => some "dup"
  | twoDup => some "2dup"
  | drop => some "drop"
  | swap => some "swap"
  | copySecond => some "over"
  | mem => some "mem"
  | load => some "@"
  | store => some "!"
  | ifBlock => some "if"
  | elseBlock => some "else"
  | endBlock => some "end"
  | whileLoop => some "while"
  | doLoop => some "do"
  | macroWord => some "macro"

/-- The builtin words with their opcodes. -/
def builtins : List (String × Opcode) :=
  all.filterMap fun o => o.word?.map (·, o)

/-- The opcode that a builtin word names; the spelling must agree exactly. -/
def ofWord? (word : String) : Option Opcode :=
  all.find? fun o => o.word? == some word

/-- The text of an opcode in listings and messages: its word, or the name of the literal push. -/
def text : Opcode → String
  | pushInt => "push-int"
  | pushStr => "push-str"
  | o => o.word?.getD "?"

/-- True of the control words that transfer control to a jump target. -/
def hasJump : Opcode → Bool
  | ifBlock | elseBlock | endBlock | doLoop => true
  | _ => false

/-- A word names `o` exactly if it is the word of `o`: no two opcodes share a word. -/
theorem ofWord?_eq_some_iff {word : String} {o : Opcode} :
    ofWord? word = some o ↔ o.word? = some word := by
  constructor
  · intro h
    simpa using List.find?_some h
  · intro h
    cases o <;> simp only [word?, Option.some.injEq, reduceCtorEq] at h <;> subst h <;> rfl

end Opcode

end StackLang
