import Mathlib.Data.List.Forall2
import StackLang.Program.Listing
import StackLang.Proofs.Text.Quoted
import StackLang.Proofs.Word

/-!
# Listings are unambiguous

A line of a listing is an opcode, a literal and a jump, of which the last two may be missing, with
nothing but blanks and an arrow between them. Some opcodes look like the beginning of a number or
of an arrow, and a string may look like anything. All the same:

**Theorem (`listing_unambiguous`).** Two operations have the same text exactly if they have the same
opcode, the same literal and the same jump, and two programs have the same listing exactly if they
are equal up to the places in the source.

The line is read from the left. No opcode has a blank in it, so the first blank ends it. No number
has one either, and a string shows itself where it ends (`Text.delimited_quote`). Behind the opcode
a literal cannot be mistaken for an arrow, because no number begins with a minus sign that is not
followed by a digit (`Immediate.text_ne_arrow`).
-/

namespace StackLang

open Text

/-! ## Numbers -/

namespace Decimal

theorem digits_injective : Function.Injective digits :=
  toDigits_injective (by decide) (by decide)

theorem text_injective : Function.Injective text := by
  intro v v' h
  have hread := read?_text v'
  rw [← h, read?_text] at hread
  exact Option.some.inj hread

/-- A number begins with a digit, or with a minus sign and a digit. -/
theorem exists_text (v : Int) :
    ∃ c cs, c.isDigit = true ∧ (text v = c :: cs ∨ text v = '-' :: c :: cs) := by
  obtain ⟨c, cs, hcs⟩ := List.exists_cons_of_ne_nil (digits_ne_nil v.natAbs)
  refine ⟨c, cs, isDigit_of_mem_digits (hcs ▸ List.mem_cons_self), ?_⟩
  unfold text
  rw [hcs]
  split
  · exact .inr rfl
  · exact .inl rfl

/-- No number begins with a quote. -/
theorem text_ne_quote (v : Int) (rest rest' : List Char) : text v ++ rest ≠ '"' :: rest' := by
  obtain ⟨c, cs, hc, htext | htext⟩ := exists_text v <;> rw [htext]
  · intro h
    rw [(List.cons.inj h).1] at hc
    exact absurd hc (by decide)
  · exact nofun

end Decimal

/-! ## Literals -/

namespace Immediate

theorem toList_text_int (v : Int64) : (int v).text.toList = Decimal.text v.toInt :=
  String.toList_ofList

theorem toList_text_str (s : String) : (str s).text.toList = Text.quote s.toList :=
  String.toList_ofList

/-- **No literal begins with an arrow.** -/
theorem text_ne_arrow (i : Immediate) (rest rest' : List Char) :
    i.text.toList ++ rest ≠ '-' :: '>' :: rest' := by
  cases i with
  | str s =>
    rw [toList_text_str]
    exact nofun
  | int v =>
    rw [toList_text_int]
    obtain ⟨c, cs, hc, htext | htext⟩ := Decimal.exists_text v.toInt <;> rw [htext] <;> intro h
    · rw [(List.cons.inj h).1] at hc
      exact absurd hc (by decide)
    · rw [(List.cons.inj (List.cons.inj h).2).1] at hc
      exact absurd hc (by decide)

/-- A literal can be read up to a blank. -/
theorem delimited_text : Delimited (fun i : Immediate => i.text.toList) (StartsWith ' ') := by
  intro i j rest rest' hrest hrest' h
  cases i with
  | int v =>
    cases j with
    | int v' =>
      simp only [toList_text_int] at h
      have hblank := Decimal.notMem_text (c := ' ') (by decide) (by decide)
      obtain ⟨hvalue, hrest⟩ :=
        Delimited.of_injective Decimal.text_injective hblank _ _ _ _ hrest hrest' h
      exact ⟨congrArg int (Int64.toInt_inj.1 hvalue), hrest⟩
    | str s =>
      simp only [toList_text_int, toList_text_str] at h
      exact absurd h (Decimal.text_ne_quote v.toInt rest _)
  | str s =>
    cases j with
    | int v =>
      simp only [toList_text_int, toList_text_str] at h
      exact absurd h.symm (Decimal.text_ne_quote v.toInt rest' _)
    | str s' =>
      simp only [toList_text_str] at h
      obtain ⟨htext, hrest⟩ := delimited_quote _ _ _ _ trivial trivial h
      exact ⟨congrArg str (String.toList_inj.1 htext), hrest⟩

end Immediate

/-! ## Operations -/

namespace Opcode

theorem text_injective : Function.Injective text := by
  have hall : ∀ o ∈ all, ∀ o' ∈ all, o.text = o'.text → o = o' := by decide
  exact fun o o' h => hall o (mem_all o) o' (mem_all o') h

/-- An opcode can be read up to a blank. -/
theorem delimited_text : Delimited (fun o : Opcode => o.text.toList) (StartsWith ' ') := by
  refine .of_injective (fun o o' h => text_injective (String.toList_inj.1 h)) fun o => ?_
  cases o <;> decide

end Opcode

namespace Operation

/-- What follows an opcode: a blank and the literal, if there is one. -/
def immediatePart : Option Immediate → List Char
  | some i => ' ' :: i.text.toList
  | none => []

/-- What ends a line: an arrow and the jump, if there is one. -/
def jumpPart : Option Nat → List Char
  | some target => [' ', '-', '>', ' '] ++ Decimal.digits target
  | none => []

theorem toList_text (op : Operation) :
    op.text.toList = op.opcode.text.toList ++ (immediatePart op.immediate ++ jumpPart op.jump) := by
  obtain ⟨opcode, immediate, jump, location⟩ := op
  cases immediate <;> cases jump <;>
    simp [text, immediatePart, jumpPart, Decimal.digits, List.append_assoc]

theorem startsWith_jumpPart (j : Option Nat) : StartsWith ' ' (jumpPart j) := by
  cases j with
  | none => exact startsWith_nil ' '
  | some => exact startsWith_cons ' ' _

theorem startsWith_parts (i : Option Immediate) (j : Option Nat) :
    StartsWith ' ' (immediatePart i ++ jumpPart j) := by
  cases i with
  | none => exact startsWith_jumpPart j
  | some => exact startsWith_cons ' ' _

theorem jumpPart_injective : Function.Injective jumpPart := by
  intro j j' h
  cases j with
  | none =>
    cases j' with
    | none => rfl
    | some => cases h
  | some target =>
    cases j' with
    | none => cases h
    | some target' => exact congrArg some (Decimal.digits_injective (List.append_cancel_left h))

/-- A literal is not a jump. -/
theorem jumpPart_ne_immediate (j : Option Nat) (i : Immediate) (rest : List Char) :
    jumpPart j ≠ ' ' :: (i.text.toList ++ rest) := by
  cases j with
  | none => exact nofun
  | some target => exact fun h => i.text_ne_arrow _ _ (List.cons.inj h).2.symm

/-- **What follows the opcode** can be read: the literal first, and then the jump. -/
theorem parts_inj {i i' : Option Immediate} {j j' : Option Nat}
    (h : immediatePart i ++ jumpPart j = immediatePart i' ++ jumpPart j') : i = i' ∧ j = j' := by
  cases i with
  | none =>
    cases i' with
    | none => exact ⟨rfl, jumpPart_injective h⟩
    | some i' => exact absurd h (jumpPart_ne_immediate j i' _)
  | some i =>
    cases i' with
    | none => exact absurd h.symm (jumpPart_ne_immediate j' i _)
    | some i' =>
      obtain ⟨rfl, hrest⟩ := Immediate.delimited_text i i' _ _ (startsWith_jumpPart j)
        (startsWith_jumpPart j') (List.cons.inj h).2
      exact ⟨rfl, jumpPart_injective hrest⟩

/-- The operations are equal, but for the places in the source. -/
structure Alike (a b : Operation) : Prop where
  opcode : a.opcode = b.opcode
  immediate : a.immediate = b.immediate
  jump : a.jump = b.jump

theorem text_eq_iff {a b : Operation} : a.text = b.text ↔ a.Alike b := by
  constructor
  · intro h
    have hlist := congrArg String.toList h
    rw [toList_text, toList_text] at hlist
    obtain ⟨hopcode, hrest⟩ :=
      Opcode.delimited_text _ _ _ _ (startsWith_parts _ _) (startsWith_parts _ _) hlist
    obtain ⟨himmediate, hjump⟩ := parts_inj hrest
    exact ⟨hopcode, himmediate, hjump⟩
  · rintro ⟨hopcode, himmediate, hjump⟩
    rw [← String.toList_inj, toList_text, toList_text, hopcode, himmediate, hjump]

end Operation

/-! ## Programs -/

namespace Program

/-- The programs are equal, but for the places in the source. -/
def Alike (p q : Program) : Prop :=
  List.Forall₂ Operation.Alike p.operations.toList q.operations.toList

/-- The lines of operations, with the first address `n`. -/
def listingFrom (n : Nat) (ops : List Operation) : List String :=
  (ops.zipIdx n).map fun (op, addr) => addrText addr ++ ": " ++ op.text

theorem listingFrom_eq_iff (n : Nat) (xs ys : List Operation) :
    listingFrom n xs = listingFrom n ys ↔ List.Forall₂ Operation.Alike xs ys := by
  induction xs generalizing n ys with
  | nil => cases ys <;> simp [listingFrom]
  | cons x xs ih =>
    cases ys with
    | nil => simp [listingFrom]
    | cons y ys =>
      have hline : addrText n ++ ": " ++ x.text = addrText n ++ ": " ++ y.text ↔ x.Alike y := by
        rw [String.append_right_inj, Operation.text_eq_iff]
      have hrest := ih (n + 1) ys
      rw [listingFrom, listingFrom] at hrest ⊢
      rw [List.zipIdx_cons, List.zipIdx_cons, List.map_cons, List.map_cons, List.cons.injEq, hline,
        hrest, List.forall₂_cons]

end Program

/-- **Listings are unambiguous.** Two operations have the same text exactly if opcode, literal and
jump are the same, and two programs have the same listing exactly if they are equal up to the places
in the source. -/
theorem listing_unambiguous :
    (∀ a b : Operation, a.text = b.text ↔
      a.opcode = b.opcode ∧ a.immediate = b.immediate ∧ a.jump = b.jump) ∧
    ∀ p q : Program, p.listing = q.listing ↔ p.Alike q := by
  refine ⟨fun a b => Operation.text_eq_iff.trans ?_, fun p q => Program.listingFrom_eq_iff 0 _ _⟩
  exact ⟨fun h => ⟨h.opcode, h.immediate, h.jump⟩, fun h => ⟨h.1, h.2.1, h.2.2⟩⟩

-- a string that looks like the end of a string and a jump
example : (⟨.pushStr, some (.str "\" -> 1"), some 1, ⟨"a", 0⟩⟩ : Operation).text =
    "push-str \"\\\" -> 1\" -> 1" := by
  decide +kernel

end StackLang
