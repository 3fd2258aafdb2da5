import StackLang.Text.Unprintable

/-!
# Quoted text

How a listing shows a string: between quotes, with a backslash before a quote or a backslash,
short forms for the four most common controls, and the code point in hexadecimal for all other
characters that cannot be shown. Apostrophes and all other characters stand for themselves.
-/

namespace StackLang.Text

/-- The short forms of characters that are not shown as they are. -/
def shortForm? : Char → Option Char
  | '"' => some '"'
  | '\\' => some '\\'
  | '\t' => some 't'
  | '\r' => some 'r'
  | '\n' => some 'n'
  | '\x00' => some '0'
  | _ => none

/-- One character as it stands between quotes. -/
def quoteChar (c : Char) : List Char :=
  match shortForm? c with
  | some short => ['\\', short]
  | none =>
    if isPrintable c then [c]
    else ['\\', 'u', '\x7b'] ++ Nat.toDigits 16 c.toNat ++ ['\x7d']

/-- A text between quotes. -/
def quote (cs : List Char) : List Char :=
  '"' :: cs.flatMap quoteChar ++ ['"']

end StackLang.Text
