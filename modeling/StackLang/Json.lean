import StackLang.Decimal

/-!
# JSON values

A JSON value as it was written: members keep their order and may repeat a key, a number keeps its
spelling, and a string is a sequence of code points. In a file such a sequence may hold a
surrogate without its partner. Then the value is still well formed, but the string is no text
(`text?`), and a number with a fraction or an exponent is no integer (`integer?`).
-/

namespace StackLang

namespace Json

/-- A value without parts. -/
inductive Leaf
  | null
  | bool (value : Bool)
  | number (spelling : List Char)
  | string (codes : List Nat)
deriving DecidableEq

end Json

/-- A JSON value. -/
inductive Json
  | leaf (l : Json.Leaf)
  | array (items : List Json)
  | object (members : List (List Nat × Json))

namespace Json

/-! ## Texts -/

/-- True of the first half of a surrogate pair. -/
def isHighSurrogate (n : Nat) : Bool :=
  0xD800 ≤ n && n < 0xDC00

/-- True of the second half of a surrogate pair. -/
def isLowSurrogate (n : Nat) : Bool :=
  0xDC00 ≤ n && n < 0xE000

/-- The characters that code points stand for. Two surrogates in the right order stand for one
character; any other surrogate stands for none. -/
def chars? : List Nat → Option (List Char)
  | [] => some []
  | [n] => if n.isValidChar then some [Char.ofNat n] else none
  | n :: m :: rest =>
    if isHighSurrogate n && isLowSurrogate m then
      (chars? rest).map (Char.ofNat (0x10000 + (n - 0xD800) * 0x400 + (m - 0xDC00)) :: ·)
    else if n.isValidChar then (chars? (m :: rest)).map (Char.ofNat n :: ·)
    else none

/-- The code points of a text. -/
def codes (text : String) : List Nat :=
  text.toList.map Char.toNat

/-- The text that code points stand for. -/
def text? (codes : List Nat) : Option String :=
  (chars? codes).map String.ofList

theorem isValidChar_toNat (c : Char) : c.toNat.isValidChar :=
  c.valid

/-- A character is no surrogate, so the code points of a text stand for that text again. -/
theorem chars?_map_toNat (cs : List Char) : chars? (cs.map Char.toNat) = some cs := by
  have hone (c : Char) : isHighSurrogate c.toNat = false := by
    have := c.valid
    simp only [isHighSurrogate, Bool.and_eq_false_iff, decide_eq_false_iff_not]
    simp only [UInt32.isValidChar, Nat.isValidChar] at this
    have hval : c.toNat = c.val.toNat := rfl
    omega
  induction cs with
  | nil => rfl
  | cons c cs ih =>
    cases cs with
    | nil => simp [chars?, isValidChar_toNat]
    | cons d ds =>
      simp only [List.map_cons] at ih ⊢
      simp [chars?, hone, isValidChar_toNat, ih]

theorem text?_codes (text : String) : text? (codes text) = some text := by
  simp [text?, codes, chars?_map_toNat]

/-! ## Numbers -/

/-- The integer that a number is written as. A fraction, an exponent or a negative zero makes it
no integer. -/
def integer? (spelling : List Char) : Option Int :=
  if spelling = ['-', '0'] then none else Decimal.read? spelling

/-! ## Values of common types -/

/-- A string that holds a text. -/
def ofText (text : String) : Json :=
  .leaf (.string (codes text))

/-- A number written as an integer. -/
def ofInt (v : Int) : Json :=
  .leaf (.number (Decimal.text v))

/-- An optional value, written as `null` if it is absent. -/
def ofOption {α : Type} (encode : α → Json) : Option α → Json
  | none => .leaf .null
  | some a => encode a

/-- An object with the given keys. -/
def ofMembers (members : List (String × Json)) : Json :=
  .object (members.map fun m => (codes m.1, m.2))

end Json

end StackLang
