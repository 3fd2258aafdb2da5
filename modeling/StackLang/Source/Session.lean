import StackLang.Source.Line
import StackLang.Text.Lines
import StackLang.Token

/-!
# Reading sessions

A session reads one file line by line. It remembers the row of the next line and the quoting
flags at the end of the last one, so a string that is not closed on its line swallows the blanks
of the lines that follow. Line ends are not characters of the text and leave the flags alone.
-/

namespace StackLang

/-- How far one file has been read. -/
structure Session where
  file : String
  quoting : Quoting
  /-- the row of the next line -/
  row : Nat
deriving DecidableEq

namespace Session

/-- A session at the start of a file. -/
def start (file : String) : Session :=
  ⟨file, .start, 0⟩

/-- The text of a line that is left to split when its comment is cut off. -/
def code (line : List Char) : List Char :=
  uncommented commentMarker.toList line

/-- The words on the next line. -/
def lineWords (s : Session) (line : List Char) : List String :=
  (s.quoting.words (code line)).map String.ofList

/-- The session after the next line. -/
def afterLine (s : Session) (line : List Char) : Session :=
  { s with quoting := s.quoting.after (code line), row := s.row + 1 }

/-- The tokens on the next line, all at the session's row. -/
def lineTokens (s : Session) (line : List Char) : List Token :=
  (s.lineWords line).map fun raw => ⟨⟨s.file, s.row⟩, .ofText raw⟩

/-- The tokens on the next lines. -/
def tokensOfLines (s : Session) : List (List Char) → List Token
  | [] => []
  | line :: rest => s.lineTokens line ++ (s.afterLine line).tokensOfLines rest

/-- The tokens of a text that comes next. -/
def tokens (s : Session) (text : String) : List Token :=
  s.tokensOfLines (Text.lines text.toList)

/-- The session after a text. -/
def after (s : Session) (text : String) : Session :=
  (Text.lines text.toList).foldl afterLine s

end Session

/-- The tokens of a whole file. -/
def tokenize (file : String) (text : String) : List Token :=
  (Session.start file).tokens text

end StackLang
