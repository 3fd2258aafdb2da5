import Mathlib.Logic.Function.Defs
import StackLang.Text.Quoted

/-!
# Where a text ends

What is written can be read again only if one can tell where it ends (`Delimited`). Some texts show
this themselves, others need a certain character behind them. Numbers and words are of the second
kind, since they hold no blank (`Delimited.of_injective`).

**Theorem (`delimited_quote`).** A text between quotes shows itself where it ends, and what it is.
Every character is written in a way that no other character's can be mistaken for
(`delimited_quoteChar`), and none begins like the closing quote. Which characters are printable
plays no part in this: a character that is not shown is written with its code point, which is read
up to the closing brace.
-/

namespace StackLang.Text

variable {α : Type} {code : α → List Char}

/-! ## Delimited texts -/

/-- If texts that may follow are put behind what `code` writes, then one can tell from the whole
what was written and what was put behind it. -/
def Delimited (code : α → List Char) (follows : List Char → Prop) : Prop :=
  ∀ x y rest rest', follows rest → follows rest' → code x ++ rest = code y ++ rest' →
    x = y ∧ rest = rest'

/-- The text is empty, or it begins with the character. -/
def StartsWith (stop : Char) (text : List Char) : Prop :=
  ∀ c ∈ text.head?, c = stop

theorem startsWith_nil (stop : Char) : StartsWith stop [] :=
  nofun

theorem startsWith_cons (stop : Char) (rest : List Char) : StartsWith stop (stop :: rest) :=
  fun _ h => (Option.some.inj h).symm

/-- Two texts end together if neither holds the character in front of which they end. -/
theorem append_inj_of_startsWith {stop : Char} {xs ys rest rest' : List Char} (hxs : stop ∉ xs)
    (hys : stop ∉ ys) (hrest : StartsWith stop rest) (hrest' : StartsWith stop rest')
    (h : xs ++ rest = ys ++ rest') : xs = ys ∧ rest = rest' := by
  rcases List.append_eq_append_iff.1 h with ⟨mid, rfl, rfl⟩ | ⟨mid, rfl, rfl⟩
  · cases mid with
    | nil => exact ⟨(List.append_nil _).symm, rfl⟩
    | cons c mid =>
      cases hrest c rfl
      exact absurd (List.mem_append_right xs List.mem_cons_self) hys
  · cases mid with
    | nil => exact ⟨List.append_nil _, rfl⟩
    | cons c mid =>
      cases hrest' c rfl
      exact absurd (List.mem_append_right ys List.mem_cons_self) hxs

/-- Different texts without a character can be told apart in front of that character. -/
theorem Delimited.of_injective {stop : Char} (hcode : Function.Injective code)
    (hstop : ∀ x, stop ∉ code x) : Delimited code (StartsWith stop) := by
  intro x y rest rest' hrest hrest' h
  obtain ⟨htext, hrest⟩ := append_inj_of_startsWith (hstop x) (hstop y) hrest hrest' h
  exact ⟨hcode htext, hrest⟩

/-- If single texts can be told apart, then so can lists of them in front of a character with which
none of them begins. -/
theorem Delimited.flatMap {stop : Char} (hcode : Delimited code fun _ => True)
    (hstop : ∀ x rest rest', code x ++ rest ≠ stop :: rest') :
    Delimited (fun xs : List α => xs.flatMap code ++ [stop]) fun _ => True := by
  intro xs
  induction xs with
  | nil =>
    intro ys rest rest' _ _ h
    cases ys with
    | nil => exact ⟨rfl, (List.cons.inj h).2⟩
    | cons y ys =>
      simp only [List.flatMap_nil, List.flatMap_cons, List.append_assoc, List.nil_append,
        List.singleton_append] at h
      exact absurd h.symm (hstop y _ rest)
  | cons x xs ih =>
    intro ys rest rest' _ _ h
    cases ys with
    | nil =>
      simp only [List.flatMap_nil, List.flatMap_cons, List.append_assoc, List.nil_append,
        List.singleton_append] at h
      exact absurd h (hstop x _ rest')
    | cons y ys =>
      simp only [List.flatMap_cons, List.append_assoc] at h
      obtain ⟨rfl, hrest⟩ := hcode x y _ _ trivial trivial h
      simp only [← List.append_assoc] at hrest
      obtain ⟨rfl, rfl⟩ := ih ys rest rest' trivial trivial hrest
      exact ⟨rfl, rfl⟩

/-! ## Hexadecimal numbers -/

theorem exists_digitChar_of_mem_toDigits {b : Nat} (hb : 1 < b) (n : Nat) {c : Char}
    (h : c ∈ Nat.toDigits b n) : ∃ k < b, c = k.digitChar := by
  induction n using Nat.strongRecOn with
  | ind n ih =>
    rw [Nat.toDigits_eq_if hb] at h
    split at h
    · next hlt => exact ⟨n, hlt, List.mem_singleton.1 h⟩
    · next hle =>
      rcases List.mem_append.1 h with h | h
      · exact ih _ (Nat.div_lt_self (by omega) hb) h
      · exact ⟨n % b, Nat.mod_lt n (by omega), List.mem_singleton.1 h⟩

/-- The digits up to `f` are different. -/
theorem eq_of_digitChar_eq {m n : Nat} (hm : m < 16) (hn : n < 16)
    (h : m.digitChar = n.digitChar) : m = n := by
  have hdigits : ∀ m < 16, ∀ n < 16, m.digitChar = n.digitChar → m = n := by decide
  exact hdigits m hm n hn h

/-- In bases up to sixteen, a number is known from its digits. -/
theorem toDigits_injective {b : Nat} (hb : 1 < b) (hb' : b ≤ 16) :
    Function.Injective (Nat.toDigits b) := by
  intro m
  induction m using Nat.strongRecOn with
  | ind m ih =>
    intro n h
    have hone : m < b ↔ n < b := by
      have hlength (k : Nat) : (Nat.toDigits b k).length ≤ 1 ↔ k < b := by
        simpa using Nat.length_toDigits_le_iff (n := k) hb Nat.one_pos
      rw [← hlength m, ← hlength n, h]
    by_cases hm : m < b
    · rw [Nat.toDigits_of_lt_base hm, Nat.toDigits_of_lt_base (hone.1 hm)] at h
      exact eq_of_digitChar_eq (by omega) (by omega) (List.singleton_inj.1 h)
    · rw [Nat.toDigits_of_base_le hb (Nat.le_of_not_lt hm),
        Nat.toDigits_of_base_le hb (Nat.le_of_not_lt (mt hone.2 hm))] at h
      obtain ⟨hfront, hlast⟩ := List.append_inj' h rfl
      have hdiv : m / b = n / b := ih _ (Nat.div_lt_self (by omega) hb) hfront
      have hmod : m % b = n % b :=
        eq_of_digitChar_eq (Nat.lt_of_lt_of_le (Nat.mod_lt m (Nat.zero_lt_of_lt hb)) hb')
          (Nat.lt_of_lt_of_le (Nat.mod_lt n (Nat.zero_lt_of_lt hb)) hb')
          (List.singleton_inj.1 hlast)
      rw [← Nat.div_add_mod m b, hdiv, hmod, Nat.div_add_mod]

/-- A hexadecimal number can be read up to a brace. -/
theorem delimited_toDigits : Delimited (Nat.toDigits 16) (StartsWith '\x7d') := by
  refine .of_injective (toDigits_injective (by decide) (by decide)) fun n h => ?_
  obtain ⟨k, -, hk⟩ := exists_digitChar_of_mem_toDigits (by decide) n h
  exact Nat.digitChar_ne '\x7d' (by decide) hk.symm

/-! ## Quoting -/

/-- The characters that have a short form, with their short forms. -/
def shortForms : List (Char × Char) :=
  [('"', '"'), ('\\', '\\'), ('\t', 't'), ('\r', 'r'), ('\n', 'n'), ('\x00', '0')]

theorem mem_shortForms {c s : Char} (h : shortForm? c = some s) : (c, s) ∈ shortForms := by
  unfold shortForm? at h
  split at h <;> cases h <;> decide

theorem eq_of_shortForm? {c d s : Char} (hc : shortForm? c = some s) (hd : shortForm? d = some s) :
    c = d := by
  have hforms : ∀ p ∈ shortForms, ∀ q ∈ shortForms, p.2 = q.2 → p.1 = q.1 := by decide
  exact hforms _ (mem_shortForms hc) _ (mem_shortForms hd) rfl

theorem shortForm?_ne_u {c : Char} : shortForm? c ≠ some 'u' := by
  have hforms : ∀ p ∈ shortForms, p.2 ≠ 'u' := by decide
  exact fun h => hforms _ (mem_shortForms h) rfl

/-- The three ways in which a character is written between quotes. -/
inductive Quoted (c : Char) : List Char → Prop
  | short {s : Char} (h : shortForm? c = some s) : Quoted c ['\\', s]
  /-- neither a quote nor a backslash stands for itself -/
  | plain (hquote : c ≠ '"') (hbackslash : c ≠ '\\') : Quoted c [c]
  | code : Quoted c (['\\', 'u', '\x7b'] ++ Nat.toDigits 16 c.toNat ++ ['\x7d'])

theorem quoted_quoteChar (c : Char) : Quoted c (quoteChar c) := by
  unfold quoteChar
  split
  · next h => exact .short h
  · next h =>
    split
    · exact .plain (by rintro rfl; cases h) (by rintro rfl; cases h)
    · exact .code

/-- No character is written so that a quote comes first. -/
theorem quoteChar_ne_quote (c : Char) (rest rest' : List Char) :
    quoteChar c ++ rest ≠ '"' :: rest' := by
  have hc := quoted_quoteChar c
  generalize quoteChar c = text at hc
  intro h
  cases hc with
  | short => cases h
  | plain hquote => exact hquote (List.cons.inj h).1
  | code => cases h

/-- **No character is written like another one**, whatever comes next. -/
theorem delimited_quoteChar : Delimited quoteChar fun _ => True := by
  intro c d rest rest' _ _ h
  have hc := quoted_quoteChar c
  have hd := quoted_quoteChar d
  generalize quoteChar c = text at hc h
  generalize quoteChar d = text' at hd h
  cases hc with
  | short hc =>
    cases hd with
    | short hd => cases h; exact ⟨eq_of_shortForm? hc hd, rfl⟩
    | plain _ hbackslash => exact absurd (List.cons.inj h).1.symm hbackslash
    | code => cases h; exact absurd hc shortForm?_ne_u
  | plain _ hbackslash =>
    cases hd with
    | short | code => exact absurd (List.cons.inj h).1 hbackslash
    | plain => exact List.cons.inj h
  | code =>
    cases hd with
    | short hd => cases h; exact absurd hd shortForm?_ne_u
    | plain _ hbackslash => exact absurd (List.cons.inj h).1.symm hbackslash
    | code =>
      simp only [List.append_assoc, List.append_cancel_left_eq, List.singleton_append] at h
      obtain ⟨hcode, hrest⟩ := delimited_toDigits _ _ _ _ (startsWith_cons _ rest)
        (startsWith_cons _ rest') h
      exact ⟨Char.toNat_inj.1 hcode, (List.cons.inj hrest).2⟩

/-- **A text between quotes shows where it ends and what it is.** -/
theorem delimited_quote : Delimited quote fun _ => True := by
  intro xs ys rest rest' _ _ h
  exact delimited_quoteChar.flatMap quoteChar_ne_quote xs ys rest rest' trivial trivial
    (List.cons.inj h).2

end StackLang.Text
