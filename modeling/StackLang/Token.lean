import StackLang.Location
import StackLang.Word

/-!
# Tokens

A token is a word together with the place where it was written.
-/

namespace StackLang

/-- A word and where it was written. -/
structure Token where
  location : Location
  word : Word
deriving DecidableEq

/-- True of the identifier `end`, which closes blocks and macro definitions. -/
def Token.isEnd (t : Token) : Bool :=
  t.word.isIdentifier "end"

end StackLang
