import StackLang.Json.Reader
import StackLang.Proofs.Json.Lexeme

/-!
# Reading what was written

Between a value and its text are the lexemes of the value (`lexemes`).

**Scanning** (`scan_write`). The text of a value is scanned as its lexemes, at any depth and in
front of any text in which a number can stop, if all leaves of the value are plain.

**Reading** (`run?_lexemes`). Inside any unfinished frames, the lexemes of a value lead from the
place before the value to the place behind it.

**Theorem (`read?_text`).** So a value with plain leaves is read back from its text.
-/

namespace StackLang.Json

mutual

/-- The lexemes of a value. -/
def lexemes : Json → List Lexeme
  | .leaf l => [.leaf l]
  | .array [] => [.openArray, .closeArray]
  | .array (v :: vs) => .openArray :: lexemes v ++ itemLexemes vs ++ [.closeArray]
  | .object [] => [.openObject, .closeObject]
  | .object ((k, v) :: ms) =>
    .openObject :: .leaf (.string k) :: .colon :: lexemes v ++ memberLexemes ms ++ [.closeObject]

/-- The lexemes of the items of an array after the first. -/
def itemLexemes : List Json → List Lexeme
  | [] => []
  | v :: vs => .comma :: lexemes v ++ itemLexemes vs

/-- The lexemes of the members of an object after the first. -/
def memberLexemes : List (List Nat × Json) → List Lexeme
  | [] => []
  | (k, v) :: ms => .comma :: .leaf (.string k) :: .colon :: lexemes v ++ memberLexemes ms

end

/-- All leaves among the lexemes are plain. -/
def PlainLeaves (ls : List Lexeme) : Prop :=
  ∀ l, .leaf l ∈ ls → l.Plain

/-- All leaves and keys of a value are plain. -/
def Plain (v : Json) : Prop :=
  PlainLeaves v.lexemes

@[simp] theorem plainLeaves_nil : PlainLeaves [] :=
  nofun

@[simp] theorem plainLeaves_cons {l : Lexeme} {ls : List Lexeme} :
    PlainLeaves (l :: ls) ↔ (∀ leaf, l = .leaf leaf → leaf.Plain) ∧ PlainLeaves ls := by
  simp [PlainLeaves, or_imp, forall_and, eq_comm]

@[simp] theorem plainLeaves_append {ls ls' : List Lexeme} :
    PlainLeaves (ls ++ ls') ↔ PlainLeaves ls ∧ PlainLeaves ls' := by
  simp [PlainLeaves, or_imp, forall_and]

@[simp] theorem plainLeaves_itemLexemes {vs : List Json} :
    PlainLeaves (itemLexemes vs) ↔ ∀ v ∈ vs, v.Plain := by
  induction vs with
  | nil => simp [itemLexemes]
  | cons v vs ih => simp [itemLexemes, ih, Plain]

@[simp] theorem plainLeaves_memberLexemes {ms : List (List Nat × Json)} :
    PlainLeaves (memberLexemes ms) ↔ ∀ m ∈ ms, (Leaf.string m.1).Plain ∧ m.2.Plain := by
  induction ms with
  | nil => simp [memberLexemes]
  | cons m ms ih => simp [memberLexemes, ih, Plain, and_assoc]

theorem plain_array {vs : List Json} : (array vs).Plain ↔ ∀ v ∈ vs, v.Plain := by
  cases vs <;> simp [Plain, lexemes]

theorem plain_object {ms : List (List Nat × Json)} :
    (object ms).Plain ↔ ∀ m ∈ ms, (Leaf.string m.1).Plain ∧ m.2.Plain := by
  cases ms <;> simp [Plain, lexemes, and_assoc]

/-! ## Scanning -/

section

variable (cs : List Char)

@[simp] theorem scan_openArray : scan ('[' :: cs) = (scan cs).map (.openArray :: ·) :=
  scan_of_next? rfl rfl

@[simp] theorem scan_closeArray : scan (']' :: cs) = (scan cs).map (.closeArray :: ·) :=
  scan_of_next? rfl rfl

@[simp] theorem scan_openObject : scan ('\x7b' :: cs) = (scan cs).map (.openObject :: ·) :=
  scan_of_next? rfl rfl

@[simp] theorem scan_closeObject : scan ('\x7d' :: cs) = (scan cs).map (.closeObject :: ·) :=
  scan_of_next? rfl rfl

@[simp] theorem scan_colon : scan (':' :: cs) = (scan cs).map (.colon :: ·) :=
  scan_of_next? rfl rfl

@[simp] theorem scan_comma : scan (',' :: cs) = (scan cs).map (.comma :: ·) :=
  scan_of_next? rfl rfl

@[simp] theorem scan_newLine (depth : Nat) : scan (newLine depth ++ cs) = scan cs := by
  refine scan_layout (fun c hc => ?_) cs
  rcases List.mem_cons.1 hc with rfl | hc
  · rfl
  · rw [List.eq_of_mem_replicate hc]
    rfl

end

theorem stops_newLine (depth : Nat) (cs : List Char) : Stops (newLine depth ++ cs) :=
  stops_cons rfl _

theorem stops_writeItems (depth : Nat) (vs : List Json) {rest : List Char} (h : Stops rest) :
    Stops (writeItems depth vs ++ rest) := by
  cases vs with
  | nil => exact h
  | cons v vs =>
    rw [writeItems]
    exact stops_cons rfl _

theorem stops_writeMembers (depth : Nat) (ms : List (List Nat × Json)) {rest : List Char}
    (h : Stops rest) : Stops (writeMembers depth ms ++ rest) := by
  cases ms with
  | nil => exact h
  | cons m ms =>
    rw [writeMembers]
    exact stops_cons rfl _

/-- A key is scanned with the colon behind it. -/
theorem scan_key {codes : List Nat} (h : (Leaf.string codes).Plain) (cs : List Char) :
    scan (writeString codes ++ ':' :: ' ' :: cs) =
      (scan cs).map fun ls => .leaf (.string codes) :: .colon :: ls := by
  have hblank : scan (' ' :: cs) = scan cs := scan_layout (List.forall_mem_singleton.2 rfl) cs
  have hstring := scan_leaf h (stops_cons (c := ':') rfl (' ' :: cs))
  rw [Leaf.write] at hstring
  rw [hstring, scan_colon, hblank, Option.map_map]
  rfl

mutual

/-- **The text of a value is scanned as its lexemes.** -/
theorem scan_write (depth : Nat) : ∀ (v : Json), v.Plain → ∀ rest, Stops rest →
    scan (write depth v ++ rest) = (scan rest).map (v.lexemes ++ ·)
  | .leaf l, h, rest, hrest => by
    rw [write, lexemes]
    exact scan_leaf (h l (by simp [lexemes])) hrest
  | .array [], _, rest, _ => by simp [write, lexemes, Function.comp_def]
  | .array (v :: vs), h, rest, _ => by
    obtain ⟨hv, hvs⟩ : v.Plain ∧ PlainLeaves (itemLexemes vs) := by
      simpa [Plain, lexemes] using h
    have hend := stops_newLine depth (']' :: rest)
    have hitems := scan_writeItems (depth + 1) vs hvs _ hend
    have hfirst := scan_write (depth + 1) v hv _ (stops_writeItems (depth + 1) vs hend)
    simp [write, lexemes, hfirst, hitems, Function.comp_def]
  | .object [], _, rest, _ => by simp [write, lexemes, Function.comp_def]
  | .object ((k, v) :: ms), h, rest, _ => by
    obtain ⟨hk, hv, hms⟩ : (Leaf.string k).Plain ∧ v.Plain ∧ PlainLeaves (memberLexemes ms) := by
      simpa [Plain, lexemes] using h
    have hend := stops_newLine depth ('\x7d' :: rest)
    have hmembers := scan_writeMembers (depth + 1) ms hms _ hend
    have hfirst := scan_write (depth + 1) v hv _ (stops_writeMembers (depth + 1) ms hend)
    simp [write, lexemes, scan_key hk, hfirst, hmembers, Function.comp_def]

theorem scan_writeItems (depth : Nat) : ∀ (vs : List Json), PlainLeaves (itemLexemes vs) →
    ∀ rest, Stops rest →
    scan (writeItems depth vs ++ rest) = (scan rest).map (itemLexemes vs ++ ·)
  | [], _, rest, _ => by simp [writeItems, itemLexemes]
  | v :: vs, h, rest, hrest => by
    obtain ⟨hv, hvs⟩ : v.Plain ∧ PlainLeaves (itemLexemes vs) := by
      simpa [Plain, itemLexemes] using h
    have hitems := scan_writeItems depth vs hvs rest hrest
    have hfirst := scan_write depth v hv _ (stops_writeItems depth vs hrest)
    simp [writeItems, itemLexemes, hfirst, hitems, Function.comp_def]

theorem scan_writeMembers (depth : Nat) : ∀ (ms : List (List Nat × Json)),
    PlainLeaves (memberLexemes ms) → ∀ rest, Stops rest →
    scan (writeMembers depth ms ++ rest) = (scan rest).map (memberLexemes ms ++ ·)
  | [], _, rest, _ => by simp [writeMembers, memberLexemes]
  | (k, v) :: ms, h, rest, hrest => by
    obtain ⟨hk, hv, hms⟩ : (Leaf.string k).Plain ∧ v.Plain ∧ PlainLeaves (memberLexemes ms) := by
      simpa [Plain, memberLexemes] using h
    have hmembers := scan_writeMembers depth ms hms rest hrest
    have hfirst := scan_write depth v hv _ (stops_writeMembers depth ms hrest)
    simp [writeMembers, memberLexemes, scan_key hk, hfirst, hmembers, Function.comp_def]

end

/-! ## Reading -/

mutual

/-- **The lexemes of a value are read as the value.** -/
theorem run?_lexemes : ∀ (v : Json) (empty : Bool) (fs : List Frame) (ls : List Lexeme),
    (Reading.value empty fs).run? (v.lexemes ++ ls) = (Reading.done v fs).run? ls
  | .leaf l, _, fs, ls => by simp [lexemes, Reading.run?, Reading.next?]
  | .array [], _, fs, ls => by simp [lexemes, Reading.run?, Reading.next?]
  | .array (v :: vs), _, fs, ls => by
    have hfirst := run?_lexemes v true (.array [] :: fs) (itemLexemes vs ++ .closeArray :: ls)
    have hitems := run?_itemLexemes vs v [] fs ls
    simp [lexemes, Reading.run?, Reading.next?, hfirst, hitems]
  | .object [], _, fs, ls => by simp [lexemes, Reading.run?, Reading.next?]
  | .object ((k, v) :: ms), _, fs, ls => by
    have hfirst := run?_lexemes v false (.object [] k :: fs)
      (memberLexemes ms ++ .closeObject :: ls)
    have hmembers := run?_memberLexemes ms v [] k fs ls
    simp [lexemes, Reading.run?, Reading.next?, hfirst, hmembers]

theorem run?_itemLexemes : ∀ (vs : List Json) (v : Json) (before : List Json) (fs : List Frame)
    (ls : List Lexeme),
    (Reading.done v (.array before :: fs)).run? (itemLexemes vs ++ .closeArray :: ls) =
      (Reading.done (.array (before.reverse ++ v :: vs)) fs).run? ls
  | [], v, before, fs, ls => by simp [itemLexemes, Reading.run?, Reading.next?]
  | w :: vs, v, before, fs, ls => by
    have hfirst := run?_lexemes w false (.array (v :: before) :: fs)
      (itemLexemes vs ++ .closeArray :: ls)
    have hitems := run?_itemLexemes vs w (v :: before) fs ls
    simp [itemLexemes, Reading.run?, Reading.next?, hfirst, hitems]

theorem run?_memberLexemes : ∀ (ms : List (List Nat × Json)) (v : Json)
    (before : List (List Nat × Json)) (k : List Nat) (fs : List Frame) (ls : List Lexeme),
    (Reading.done v (.object before k :: fs)).run? (memberLexemes ms ++ .closeObject :: ls) =
      (Reading.done (.object (before.reverse ++ (k, v) :: ms)) fs).run? ls
  | [], v, before, k, fs, ls => by simp [memberLexemes, Reading.run?, Reading.next?]
  | (j, w) :: ms, v, before, k, fs, ls => by
    have hfirst := run?_lexemes w false (.object ((k, v) :: before) j :: fs)
      (memberLexemes ms ++ .closeObject :: ls)
    have hmembers := run?_memberLexemes ms w ((k, v) :: before) j fs ls
    simp [memberLexemes, Reading.run?, Reading.next?, hfirst, hmembers]

end

/-- **A value is read back from its text**, if its leaves are plain. -/
theorem read?_text {v : Json} (h : v.Plain) : read? v.text = some v := by
  have hscan : scan (write 0 v) = some v.lexemes := by
    have := scan_write 0 v h [] stops_nil
    simpa [scan] using this
  have hrun : (Reading.value false []).run? v.lexemes = some (.done v []) := by
    have := run?_lexemes v false [] []
    simpa [Reading.run?] using this
  rw [read?, text, String.toList_ofList, hscan]
  simp [hrun, Reading.result?]

end StackLang.Json
