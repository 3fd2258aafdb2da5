/-!
# Lines

A newline ends a line, and so does a carriage return with a newline after it. A carriage return
anywhere else is part of its line, also at the very end of the text. Text after the last newline
is a line of its own unless it is empty.
-/

namespace StackLang.Text

/-- A line whose newline has been removed, without the carriage return before that newline. -/
def dropReturn (line : List Char) : List Char :=
  if line.getLast? = some '\r' then line.dropLast else line

/-- The lines among the pieces that newlines divide a text into; only the last piece was not
ended by a newline. -/
def linesOfPieces : List (List Char) → List (List Char)
  | [] => []
  | [last] => if last.isEmpty then [] else [last]
  | piece :: next :: rest => dropReturn piece :: linesOfPieces (next :: rest)

/-- The lines of a text, without their line ends. -/
def lines (text : List Char) : List (List Char) :=
  linesOfPieces (text.splitOn '\n')

end StackLang.Text
