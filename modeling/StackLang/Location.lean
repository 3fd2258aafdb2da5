/-!
# Source locations

Tokens, operations and errors all point back at the row of the file they come from. Rows count
from zero.
-/

namespace StackLang

/-- A row of a source file. -/
structure Location where
  file : String
  row : Nat
deriving DecidableEq

/-- The text `file:row`. -/
def Location.text (l : Location) : String :=
  l.file ++ ":" ++ Nat.repr l.row

end StackLang
