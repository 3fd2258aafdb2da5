import Mathlib.Data.List.Nodup
import StackLang.Proofs.Macro

/-!
# The history of a macro table

A table is made by calls of `define`, one after the other, on a table without macros. A call that is
refused leaves the table in use as it was (`attempt`). Of the calls of a history, `accepted` lists
those that are not refused when their turn comes.

**Theorem (`replay_writeOnce`).** A table is a map that is written once for each name. What it says
about a word is the body of the one accepted call with that name, and whether a call is accepted
depends on its own name and on those of the accepted calls before it.

Behind this is one invariant (`Holds`): the macros of the table are those of the accepted calls, in
the same order and with different names. An accepted call adds to both sides (`Holds.define`).
-/

namespace StackLang

/-- What a macro is defined by: the token that is to name it, and its body. -/
structure Definition (Body : Type) where
  name : Token
  body : Body

namespace MacroTable

variable {Body : Type} {t t' : MacroTable Body} {d : Definition Body}
  {made : List (Definition Body)} {w : Word} {b : Body} {n : String} {e : CompileError}

/-! ## Calls -/

/-- The table in use after a call of `define`. -/
def attempt (t : MacroTable Body) (d : Definition Body) : MacroTable Body :=
  match t.define d.name d.body with
  | .ok t' => t'
  | .error _ => t

/-- The table in use after a sequence of calls. -/
def replay (t : MacroTable Body) (ds : List (Definition Body)) : MacroTable Body :=
  ds.foldl attempt t

/-- The calls of a sequence that are accepted, each by the table in use when its turn comes. -/
def accepted (t : MacroTable Body) : List (Definition Body) → List (Definition Body)
  | [] => []
  | d :: ds =>
    match t.define d.name d.body with
    | .ok t' => d :: accepted t' ds
    | .error _ => accepted t ds

theorem attempt_of_ok (h : t.define d.name d.body = .ok t') : t.attempt d = t' := by
  simp only [attempt, h]

/-- A call that is refused changes nothing. -/
theorem attempt_of_error (h : t.define d.name d.body = .error e) : t.attempt d = t := by
  simp only [attempt, h]

theorem accepted_cons_of_ok (h : t.define d.name d.body = .ok t') (ds : List (Definition Body)) :
    t.accepted (d :: ds) = d :: t'.accepted ds := by
  simp only [accepted, h]

theorem accepted_cons_of_error (h : t.define d.name d.body = .error e)
    (ds : List (Definition Body)) : t.accepted (d :: ds) = t.accepted ds := by
  simp only [accepted, h]

theorem define_eq_ok_iff :
    t.define d.name d.body = .ok t' ↔ ∃ n, t.checkName d.name = .ok n ∧ t' = t.insert n d.body := by
  unfold define
  cases t.checkName d.name with
  | ok n => simp [Except.map, eq_comm]
  | error e => simp [Except.map]

theorem define_eq_error_iff :
    t.define d.name d.body = .error e ↔ t.checkName d.name = .error e := by
  unfold define
  cases t.checkName d.name <;> simp [Except.map]

/-- The check of a name foretells whether a call succeeds. -/
theorem exists_define_iff :
    (∃ t', t.define d.name d.body = .ok t') ↔ ∃ n, t.checkName d.name = .ok n := by
  constructor
  · rintro ⟨t', ht'⟩
    obtain ⟨n, hn, -⟩ := define_eq_ok_iff.1 ht'
    exact ⟨n, hn⟩
  · rintro ⟨n, hn⟩
    exact ⟨_, define_eq_ok_iff.2 ⟨n, hn, rfl⟩⟩

/-! ## What a table says -/

/-- The words that invoke macros, each with the body of its macro. -/
def bindings (t : MacroTable Body) : List (Word × Body) :=
  t.entries.map fun e => (.identifier e.1, e.2)

theorem bindings_insert (t : MacroTable Body) (n : String) (b : Body) :
    (t.insert n b).bindings = t.bindings ++ [(.identifier n, b)] := by
  simp [bindings, MacroTable.insert]

theorem map_fst_bindings (t : MacroTable Body) :
    t.bindings.map Prod.fst = t.names.map Word.identifier := by
  simp [bindings, names]

/-- If names are different, then a macro is found under its own name. -/
theorem get?_eq_some_iff (ht : t.names.Nodup) : t.get? w = some b ↔ (w, b) ∈ t.bindings := by
  constructor
  · intro h
    obtain ⟨e, he, rfl⟩ := Option.map_eq_some_iff.1 h
    rw [word_of_invoked? he]
    exact List.mem_map_of_mem (mem_of_invoked? he)
  · intro h
    obtain ⟨e, he, hpair⟩ := List.mem_map.1 h
    obtain ⟨rfl, rfl⟩ := Prod.mk.inj hpair
    obtain ⟨found, hfound⟩ :=
      Option.ne_none_iff_exists'.1 (invoked?_ne_none (List.mem_map_of_mem he : e.1 ∈ t.names))
    have hname : e.1 = found.1 := Word.identifier.inj (word_of_invoked? hfound)
    obtain rfl := List.inj_on_of_nodup_map ht he (mem_of_invoked? hfound) hname
    rw [get?, hfound]
    rfl

theorem contains_eq_isSome_get? (t : MacroTable Body) (w : Word) :
    t.contains w = (t.get? w).isSome := by
  rw [contains, get?, Option.isSome_map]

/-! ## Tables and their histories -/

/-- The macros of a table are those of the calls `made`, and their names are different. -/
structure Holds (made : List (Definition Body)) (t : MacroTable Body) : Prop where
  bindings : t.bindings = made.map fun d => (d.name.word, d.body)
  nodup : t.names.Nodup

theorem holds_empty : Holds [] (empty : MacroTable Body) :=
  ⟨rfl, List.nodup_nil⟩

/-- **An accepted call adds one macro.** -/
theorem Holds.define (h : Holds made t) (hd : t.define d.name d.body = .ok t') :
    Holds (made ++ [d]) t' := by
  obtain ⟨n, hn, rfl⟩ := define_eq_ok_iff.1 hd
  refine ⟨?_, nodup_insert h.nodup hn⟩
  rw [bindings_insert, h.bindings, List.map_append, ← (checkName_eq_ok hn).1]
  rfl

/-- **The accepted calls of a history make the table.** -/
theorem Holds.replay (h : Holds made t) (ds : List (Definition Body)) :
    Holds (made ++ t.accepted ds) (t.replay ds) := by
  induction ds generalizing made t with
  | nil =>
    rw [accepted, List.append_nil]
    exact h
  | cons d ds ih =>
    have hreplay : t.replay (d :: ds) = (t.attempt d).replay ds := rfl
    rw [hreplay]
    cases hd : t.define d.name d.body with
    | ok t' =>
      rw [accepted_cons_of_ok hd, attempt_of_ok hd, List.append_cons]
      exact ih (h.define hd)
    | error e =>
      rw [accepted_cons_of_error hd, attempt_of_error hd]
      exact ih h

theorem Holds.get?_eq_some_iff (h : Holds made t) :
    t.get? w = some b ↔ ∃ d ∈ made, d.name.word = w ∧ d.body = b := by
  rw [MacroTable.get?_eq_some_iff h.nodup, h.bindings]
  simp

theorem Holds.contains_iff (h : Holds made t) :
    t.contains w = true ↔ ∃ d ∈ made, d.name.word = w := by
  rw [contains_eq_isSome_get?, Option.isSome_iff_exists]
  constructor
  · rintro ⟨b, hb⟩
    obtain ⟨d, hd, hword, -⟩ := h.get?_eq_some_iff.1 hb
    exact ⟨d, hd, hword⟩
  · rintro ⟨d, hd, hword⟩
    exact ⟨d.body, h.get?_eq_some_iff.2 ⟨d, hd, hword, rfl⟩⟩

theorem Holds.size_eq (h : Holds made t) : t.size = made.length := by
  have hlength := congrArg List.length h.bindings
  simpa [MacroTable.bindings, size] using hlength

/-- No two accepted calls have the same name. -/
theorem Holds.nodup_words (h : Holds made t) : (made.map (·.name.word)).Nodup := by
  have hwords : made.map (·.name.word) = t.names.map Word.identifier := by
    rw [← map_fst_bindings, h.bindings, List.map_map]
    rfl
  rw [hwords]
  exact h.nodup.map fun _ _ => Word.identifier.inj

/-- What has been written stays, whatever calls follow. -/
theorem Holds.get?_replay (h : Holds made t) (later : List (Definition Body))
    (hb : t.get? w = some b) : (t.replay later).get? w = some b := by
  obtain ⟨d, hd, hword⟩ := h.get?_eq_some_iff.1 hb
  exact (h.replay later).get?_eq_some_iff.2 ⟨d, List.mem_append_left _ hd, hword⟩

/-- The table `t` has been written by the calls `made`, once for each name, and it accepts or
refuses further calls accordingly. -/
structure WriteOnce (made : List (Definition Body)) (t : MacroTable Body) : Prop where
  /-- a call succeeds if its name is an identifier, not builtin and not given by a call before -/
  succeeds (d : Definition Body) : (∃ t', t.define d.name d.body = .ok t') ↔
    ∃ n, d.name.word = .identifier n ∧ Opcode.ofWord? n = none ∧
      ∀ c ∈ made, c.name.word ≠ d.name.word
  /-- the check of the name foretells it -/
  check (d : Definition Body) :
    (∃ t', t.define d.name d.body = .ok t') ↔ ∃ n, t.checkName d.name = .ok n
  /-- what is reported of a call that fails, and when -/
  reports (d : Definition Body) (e : CompileError) : t.define d.name d.body = .error e ↔
    Refusal (fun w => ∃ c ∈ made, c.name.word = w) d.name e
  /-- a call that fails leaves the table as it was -/
  atomic (d : Definition Body) (e : CompileError) :
    t.define d.name d.body = .error e → t.attempt d = t
  /-- there is one call for a name -/
  once : (made.map (·.name.word)).Nodup
  /-- the table has the bodies of the calls, for their names and for no other word -/
  get (w : Word) (b : Body) : t.get? w = some b ↔ ∃ c ∈ made, c.name.word = w ∧ c.body = b
  /-- nothing is found under a literal, whatever its text -/
  literal (w : Word) : w.identifier? = none → t.get? w = none
  contains (w : Word) : t.contains w = (t.get? w).isSome
  size : t.size = made.length
  /-- further calls change nothing that has been written -/
  kept (later : List (Definition Body)) (w : Word) (b : Body) :
    t.get? w = some b → (t.replay later).get? w = some b

/-- **A table is written once for each name.** After any sequence of calls on a table without
macros, the table is the map that the accepted calls have written. -/
theorem replay_writeOnce (past : List (Definition Body)) :
    WriteOnce ((empty : MacroTable Body).accepted past) ((empty : MacroTable Body).replay past) := by
  have h := holds_empty.replay past
  rw [List.nil_append] at h
  have htaken : ((empty.replay past).contains · = true) =
      fun w => ∃ c ∈ empty.accepted past, c.name.word = w :=
    funext fun w => propext h.contains_iff
  exact {
    succeeds d := by
      rw [exists_define_iff]
      simp only [checkName_eq_ok_iff, Ne, h.contains_iff, not_exists, not_and]
    check d := exists_define_iff
    reports d e := by rw [define_eq_error_iff, checkName_eq_error_iff, htaken]
    atomic d e := attempt_of_error
    once := h.nodup_words
    get w b := h.get?_eq_some_iff
    literal w hw := by
      rw [Option.eq_none_iff_forall_ne_some]
      intro b hb
      obtain ⟨e, he, -⟩ := Option.map_eq_some_iff.1 hb
      rw [word_of_invoked? he] at hw
      cases hw
    contains w := contains_eq_isSome_get? _ w
    size := h.size_eq
    kept later w b := h.get?_replay later }

/-- Of two calls with one name the first is accepted; a builtin word and a literal name nothing. -/
example :
    let call (w : Word) (body : Nat) : Definition Nat := ⟨⟨⟨"a", 0⟩, w⟩, body⟩
    ((empty : MacroTable Nat).replay [call (.identifier "f") 1, call (.identifier "f") 2,
      call (.identifier "if") 3, call (.stringLiteral "g") 4, call (.identifier "g") 5]).entries =
      [("f", 1), ("g", 5)] := by
  decide

end MacroTable

end StackLang
