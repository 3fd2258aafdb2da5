import StackLang.Token

/-!
# Macro bodies

The body of a macro reaches from its name to the first `end`; control structures inside it are
not counted. So no body holds an `end`, however it came about.
-/

namespace StackLang

/-- The tokens of a macro, none of which is `end`. -/
structure MacroBody where
  tokens : List Token
  endFree : ∀ t ∈ tokens, t.isEnd = false

/-- A token that waits to be compiled, with the macros whose expansion it came from. -/
structure Pending where
  token : Token
  /-- the names of the enclosing macros, innermost first; empty for a token of the source -/
  trail : List String
deriving DecidableEq

namespace MacroBody

/-- The tokens before the first `end`. -/
def upToEnd (waiting : List Pending) : MacroBody where
  tokens := (waiting.takeWhile (!·.token.isEnd)).map (·.token)
  endFree t ht := by
    obtain ⟨i, hi, rfl⟩ := List.mem_map.1 ht
    simpa using List.all_eq_true.1 (List.all_takeWhile (p := (!·.token.isEnd)) (l := waiting)) i hi

/-- Cut a body off the waiting tokens: those before the first `end`, and those after it. There is
none if no `end` is waiting. -/
def cut? (waiting : List Pending) : Option (MacroBody × List Pending) :=
  match waiting.dropWhile (!·.token.isEnd) with
  | [] => none
  | _ :: rest => some (upToEnd waiting, rest)

/-- The tokens of a body as they enter the queue when the macro `name` is expanded at a token
with the trail `trail`. -/
def pending (b : MacroBody) (name : String) (trail : List String) : List Pending :=
  b.tokens.map (⟨·, name :: trail⟩)

end MacroBody

end StackLang
