import StackLang.Text.Blank

/-!
# The words of a line

A line is cut at its first comment marker `//`, and what is left is split into words at blanks,
except where a quoted region is open.

**The flags** (`Quoting`). Reading a character changes two flags. A quote that is not escaped
opens or closes a quoted region. A character is escaped exactly if the character before it is a
backslash, even a backslash that was itself escaped. Both flags may carry over from the line
before.

**Separators.** A character separates words if it is blank and, once it has been read, no quoted
region is open. The words are the maximal runs of other characters.

The comment is cut before quotes are looked at, so a marker inside a string ends the line as well.
-/

namespace StackLang

/-- What the characters read so far say about the next one. -/
structure Quoting where
  /-- a quoted region is open -/
  quoted : Bool
  /-- the last character was a backslash -/
  escaped : Bool
deriving DecidableEq

namespace Quoting

/-- The flags before anything was read. -/
def start : Quoting :=
  ⟨false, false⟩

/-- The flags after reading one more character. -/
def next (q : Quoting) (c : Char) : Quoting :=
  ⟨q.quoted ^^ (c == '"' && !q.escaped), c == '\\'⟩

/-- The flags after reading a text. -/
def after (q : Quoting) (text : List Char) : Quoting :=
  text.foldl next q

/-- True if the character `c`, read just now, separates words. -/
def separates (q : Quoting) (c : Char) : Bool :=
  !q.quoted && Text.isBlank c

/-- Every character of a text, marked with whether it separates words. -/
def mark (q : Quoting) : List Char → List (Char × Bool)
  | [] => []
  | c :: cs => (c, (q.next c).separates c) :: mark (q.next c) cs

/-- The words of a text: its maximal runs of characters that do not separate words. -/
def words (q : Quoting) (text : List Char) : List (List Char) :=
  (((q.mark text).splitOnP Prod.snd).filter (!·.isEmpty)).map (·.map Prod.fst)

@[simp] theorem after_nil (q : Quoting) : q.after [] = q := rfl

@[simp] theorem after_cons (q : Quoting) (c : Char) (cs : List Char) :
    q.after (c :: cs) = (q.next c).after cs := rfl

theorem after_append (q : Quoting) (xs ys : List Char) :
    q.after (xs ++ ys) = (q.after xs).after ys :=
  List.foldl_append

theorem mark_append (q : Quoting) (xs ys : List Char) :
    q.mark (xs ++ ys) = q.mark xs ++ (q.after xs).mark ys := by
  induction xs generalizing q with
  | nil => rfl
  | cons c cs ih => simp [mark, ih]

end Quoting

/-- What starts a comment. -/
def commentMarker : String :=
  "//"

/-- A line without its comment: everything before the first marker. -/
def uncommented (marker : List Char) : List Char → List Char
  | [] => []
  | c :: cs => if marker.isPrefixOf (c :: cs) then [] else c :: uncommented marker cs

end StackLang
