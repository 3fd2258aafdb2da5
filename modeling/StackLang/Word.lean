import StackLang.Decimal

/-!
# Words

A word is a maximal piece of source text between blanks, classified by its spelling:

- an integer literal, if it is a decimal number with at most one sign and a 64-bit value;
- otherwise a string literal, if it has a quote at both ends and they are two quotes;
- otherwise an identifier: a builtin word, or the name of a macro.

Nothing inside a string literal is decoded, so its text keeps every backslash. A number too
large for 64 bits is an identifier.
-/

namespace StackLang

/-- A classified word of source text. -/
inductive Word
  | intLiteral (value : Int64)
  /-- the text between the two quotes, as written -/
  | stringLiteral (text : String)
  | identifier (name : String)
deriving DecidableEq

namespace Word

/-- The spelling of a word: what a source file holds for it. -/
def text : Word → String
  | intLiteral value => String.ofList (Decimal.text value.toInt)
  | stringLiteral text => "\"" ++ text ++ "\""
  | identifier name => name

/-- The text of an identifier; literals have none. -/
def identifier? : Word → Option String
  | identifier name => some name
  | _ => none

/-- True of the identifier `name` alone; a literal with the same text is not it. -/
def isIdentifier (w : Word) (name : String) : Bool :=
  w.identifier? == some name

/-- The text between two quotes. A single quote is not two. -/
def unquote? : List Char → Option (List Char)
  | '"' :: cs => if cs.getLast? = some '"' then some cs.dropLast else none
  | _ => none

/-- The word with a given spelling. -/
def ofText (raw : String) : Word :=
  match (Decimal.read? raw.toList).bind Decimal.int64? with
  | some value => intLiteral value
  | none =>
    match unquote? raw.toList with
    | some text => stringLiteral (String.ofList text)
    | none => identifier raw

end Word

end StackLang
