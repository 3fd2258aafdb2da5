import StackLang.CompileError
import StackLang.Token

/-!
# Macro tables

A table holds the macros defined so far: each has a name and a body. Names are identifiers, no
name is a builtin word, and a name is given once: a table is only ever added to, and what it says
about a name never changes.

**When a name is refused** (`checkName`). A literal is no name. Of the identifiers, builtin words
are refused first and then the names that are taken. Each refusal is reported at the name.
-/

namespace StackLang

/-- The macros defined so far, in order of definition, with bodies of any type. -/
structure MacroTable (Body : Type) where
  entries : List (String × Body)

namespace MacroTable

variable {Body : Type}

/-- The table without macros. -/
def empty : MacroTable Body :=
  ⟨[]⟩

/-- The number of macros. -/
def size (t : MacroTable Body) : Nat :=
  t.entries.length

/-- The macro that a word invokes: its name and its body. Literals invoke nothing. -/
def invoked? (t : MacroTable Body) (w : Word) : Option (String × Body) :=
  t.entries.find? fun e => w.isIdentifier e.1

/-- The body of the macro that a word invokes. -/
def get? (t : MacroTable Body) (w : Word) : Option Body :=
  (t.invoked? w).map Prod.snd

/-- True of a word that invokes a macro. -/
def contains (t : MacroTable Body) (w : Word) : Bool :=
  (t.invoked? w).isSome

/-- The name that a token gives to a new macro, or the reason why it gives none. -/
def checkName (t : MacroTable Body) (name : Token) : Except CompileError String :=
  match name.word with
  | .identifier n =>
    if (Opcode.ofWord? n).isSome then .error (.reservedMacroName name.location n)
    else if t.contains name.word then .error (.macroRedefinition name.location n)
    else .ok n
  | literal => .error (.malformedMacro name.location literal.text)

/-- Add a macro whose name is known to be free. -/
def insert (t : MacroTable Body) (name : String) (body : Body) : MacroTable Body :=
  ⟨t.entries ++ [(name, body)]⟩

/-- Define a macro, unless its name is refused. -/
def define (t : MacroTable Body) (name : Token) (body : Body) :
    Except CompileError (MacroTable Body) :=
  (t.checkName name).map fun n => t.insert n body

@[simp] theorem size_empty : (empty : MacroTable Body).size = 0 := rfl

@[simp] theorem size_insert (t : MacroTable Body) (name : String) (body : Body) :
    (t.insert name body).size = t.size + 1 := by
  simp [size, insert]

theorem mem_of_invoked? {t : MacroTable Body} {w : Word} {e : String × Body}
    (h : t.invoked? w = some e) : e ∈ t.entries :=
  List.mem_of_find?_eq_some h

/-- The macro that a word invokes bears the word as its name. -/
theorem identifier?_of_invoked? {t : MacroTable Body} {w : Word} {e : String × Body}
    (h : t.invoked? w = some e) : w.identifier? = some e.1 := by
  simpa [Word.isIdentifier] using List.find?_some h

/-- A table answers for a name as it did before, or with the new body. -/
theorem invoked?_insert (t : MacroTable Body) (name : String) (body : Body) (w : Word) :
    (t.insert name body).invoked? w =
      (t.invoked? w).or (if w.isIdentifier name then some (name, body) else none) := by
  simp only [invoked?, insert, List.find?_append, List.find?_cons, List.find?_nil]
  cases w.isIdentifier name <;> rfl

end MacroTable

end StackLang
