import StackLang.Json

/-!
# JSON lexemes

The text of a JSON value is a sequence of lexemes: leaves, brackets, braces, colons and commas,
with layout in between. Layout is the space, the tab, the newline and the carriage return, and
nothing else.

A number is scanned as far as characters of numbers reach, and refused if that is not exactly one
number. Two values never stand side by side, so nothing is lost by scanning too far.
-/

namespace StackLang.Json

/-- A smallest piece of the text of a JSON value. -/
inductive Lexeme
  | leaf (l : Leaf)
  | openArray
  | closeArray
  | openObject
  | closeObject
  | colon
  | comma
deriving DecidableEq

/-! ## Numbers -/

/-- Nothing, or an exponent. -/
def isExponent : List Char → Bool
  | [] => true
  | e :: cs =>
    (e == 'e' || e == 'E') &&
      match cs with
      | '+' :: ds | '-' :: ds | ds => !ds.isEmpty && ds.all Char.isDigit

/-- Nothing, a fraction, an exponent, or both in this order. -/
def isFraction : List Char → Bool
  | '.' :: c :: cs => c.isDigit && isExponent (cs.dropWhile Char.isDigit)
  | cs => isExponent cs

/-- A number without a sign; only zero itself starts with a zero. -/
def isUnsigned : List Char → Bool
  | [] => false
  | '0' :: cs => isFraction cs
  | c :: cs => c.isDigit && isFraction (cs.dropWhile Char.isDigit)

/-- A number. -/
def isNumber : List Char → Bool
  | '-' :: cs => isUnsigned cs
  | cs => isUnsigned cs

/-- True of the characters that numbers are made of. -/
def isNumberChar (c : Char) : Bool :=
  c.isDigit || c == '-' || c == '+' || c == '.' || c == 'e' || c == 'E'

/-! ## Strings -/

/-- The code points that have a short form, with the character of that form. -/
def shortForms : List (Nat × Char) :=
  [(0x22, '"'), (0x5C, '\\'), (0x08, 'b'), (0x0C, 'f'), (0x0A, 'n'), (0x0D, 'r'), (0x09, 't')]

/-- The code point of the short form with a given character. A slash may have one. -/
def ofShortForm? (e : Char) : Option Nat :=
  if e = '/' then some 0x2F else (shortForms.find? (·.2 = e)).map Prod.fst

/-- The value of a hexadecimal digit. -/
def hexValue? (c : Char) : Option Nat :=
  if c.isDigit then some (c.toNat - '0'.toNat)
  else if 'a' ≤ c ∧ c ≤ 'f' then some (c.toNat - 'a'.toNat + 10)
  else if 'A' ≤ c ∧ c ≤ 'F' then some (c.toNat - 'A'.toNat + 10)
  else none

/-- The value of hexadecimal digits, most significant first. -/
def hex? (cs : List Char) : Option Nat :=
  (cs.mapM hexValue?).map fun ds => ds.foldl (16 * · + ·) 0

/-- The code points up to the closing quote, and what follows it. Controls have to be escaped. -/
def string? : List Char → Option (List Nat × List Char)
  | [] => none
  | '"' :: rest => some ([], rest)
  | '\\' :: 'u' :: a :: b :: c :: d :: rest =>
    match hex? [a, b, c, d], string? rest with
    | some n, some (codes, rest) => some (n :: codes, rest)
    | _, _ => none
  | '\\' :: e :: rest =>
    match ofShortForm? e, string? rest with
    | some n, some (codes, rest) => some (n :: codes, rest)
    | _, _ => none
  | c :: rest =>
    if c = '\\' ∨ c.toNat < 0x20 then none
    else (string? rest).map fun (codes, rest) => (c.toNat :: codes, rest)

/-! ## Scanning -/

/-- True of layout between lexemes. -/
def isLayout (c : Char) : Bool :=
  c == ' ' || c == '\t' || c == '\n' || c == '\r'

/-- The lexeme at the front of a text that does not start with layout. -/
def next? : List Char → Option (Lexeme × List Char)
  | '[' :: cs => some (.openArray, cs)
  | ']' :: cs => some (.closeArray, cs)
  | '\x7b' :: cs => some (.openObject, cs)
  | '\x7d' :: cs => some (.closeObject, cs)
  | ':' :: cs => some (.colon, cs)
  | ',' :: cs => some (.comma, cs)
  | '"' :: cs => (string? cs).map fun (codes, rest) => (.leaf (.string codes), rest)
  | 'n' :: 'u' :: 'l' :: 'l' :: cs => some (.leaf .null, cs)
  | 't' :: 'r' :: 'u' :: 'e' :: cs => some (.leaf (.bool true), cs)
  | 'f' :: 'a' :: 'l' :: 's' :: 'e' :: cs => some (.leaf (.bool false), cs)
  | cs =>
    let spelling := cs.takeWhile isNumberChar
    if isNumber spelling then some (.leaf (.number spelling), cs.dropWhile isNumberChar) else none

/-- A string takes at least its closing quote from the text. -/
theorem length_string?_lt {cs rest : List Char} {codes : List Nat}
    (h : string? cs = some (codes, rest)) : rest.length < cs.length := by
  fun_induction string? cs generalizing codes rest with
  | case1 => cases h
  | case2 =>
    cases h
    exact Nat.lt_succ_self _
  | case3 a b c d tail n codes' rest' hrest _ ih =>
    cases h
    have := ih hrest
    simp only [List.length_cons]
    omega
  | case4 => cases h
  | case5 e tail _ n codes' rest' hrest _ ih =>
    cases h
    have := ih hrest
    simp only [List.length_cons]
    omega
  | case6 => cases h
  | case7 => cases h
  | case8 c tail =>
    next ih =>
    obtain ⟨⟨codes', rest'⟩, hrest, he⟩ := Option.map_eq_some_iff.1 h
    cases he
    have := ih hrest
    simp only [List.length_cons]
    omega

/-- A number takes at least one character from the text. -/
theorem length_dropWhile_lt {cs : List Char} (h : isNumber (cs.takeWhile isNumberChar) = true) :
    (cs.dropWhile isNumberChar).length < cs.length := by
  have hsplit := congrArg List.length (List.takeWhile_append_dropWhile (p := isNumberChar) (l := cs))
  have hpos : 0 < (cs.takeWhile isNumberChar).length :=
    List.length_pos_iff.2 fun hnil => by simp [hnil, isNumber, isUnsigned] at h
  rw [List.length_append] at hsplit
  omega

/-- Every lexeme takes at least one character from the text. -/
theorem length_next?_lt {cs rest : List Char} {l : Lexeme} (h : next? cs = some (l, rest)) :
    rest.length < cs.length := by
  unfold next? at h
  split at h
  case h_7 =>
    obtain ⟨⟨codes', rest'⟩, hrest, he⟩ := Option.map_eq_some_iff.1 h
    cases he
    have := length_string?_lt hrest
    simp only [List.length_cons]
    omega
  case h_11 =>
    dsimp only at h
    split at h
    · next hnumber =>
      cases h
      exact length_dropWhile_lt hnumber
    · cases h
  all_goals
    cases h
    simp only [List.length_cons]
    omega

/-- The lexemes of a text, if it consists of lexemes and layout. -/
def scan (text : List Char) : Option (List Lexeme) :=
  match text with
  | [] => some []
  | c :: cs =>
    if isLayout c then scan cs
    else
      match _h : next? (c :: cs) with
      | none => none
      | some (l, rest) => (scan rest).map (l :: ·)
termination_by text.length
decreasing_by
  · exact Nat.lt_succ_self _
  · exact length_next?_lt _h

end StackLang.Json
