import Mathlib.Data.List.TakeWhile
import StackLang.Macro.Body
import StackLang.Macro.Table

/-!
# Macro tables and macro bodies

Along a lowering the table only grows (`Extends`), and it never holds the name of a builtin word
(`NoBuiltin`). So a word that invokes a macro does so for good, and it is no control word. Why a
token is refused as a name depends on the table only through the words that are taken (`Refusal`).

Bodies are cut off where the next `end` is. Tokens among which there is none (`EndFree`) take no
part in it.
-/

namespace StackLang

/-! ## Tables -/

/-- Why a token is refused as the name of a new macro when some words are taken, and what is
reported. A literal is no name; of the identifiers, builtin words come first. -/
inductive Refusal (taken : Word → Prop) (t : Token) : CompileError → Prop
  | literal (hword : t.word.identifier? = none) :
      Refusal taken t (.malformedMacro t.location t.word.text)
  | builtin {name : String} {opcode : Opcode} (hword : t.word = .identifier name)
      (hop : Opcode.ofWord? name = some opcode) :
      Refusal taken t (.reservedMacroName t.location name)
  | taken {name : String} (hword : t.word = .identifier name) (hop : Opcode.ofWord? name = none)
      (htaken : taken t.word) : Refusal taken t (.macroRedefinition t.location name)

namespace MacroTable

variable {Body : Type} {m m' : MacroTable Body} {w : Word} {e : String × Body} {name : String}
  {body : Body}

/-- The names in a table, in order of definition. -/
def names (m : MacroTable Body) : List String :=
  m.entries.map (·.1)

/-- No macro has the name of a builtin word. -/
def NoBuiltin (m : MacroTable Body) : Prop :=
  ∀ name ∈ m.names, Opcode.ofWord? name = none

/-- Every macro of the table `m` is in the table `m'`, with the same body. -/
def Extends (m m' : MacroTable Body) : Prop :=
  ∀ w e, m.invoked? w = some e → m'.invoked? w = some e

@[simp] theorem names_insert (m : MacroTable Body) (name : String) (body : Body) :
    (m.insert name body).names = m.names ++ [name] := by
  simp [names, insert]

theorem checkName_eq_ok {t : Token} (h : m.checkName t = .ok name) :
    t.word = .identifier name ∧ Opcode.ofWord? name = none ∧ m.invoked? t.word = none := by
  unfold checkName at h
  split at h
  · next n hword =>
    split at h
    · cases h
    · next hbuiltin =>
      split at h
      · cases h
      · next hfree =>
        cases h
        refine ⟨hword, by simpa using hbuiltin, ?_⟩
        simpa [contains] using hfree
  · cases h

/-- An identifier that is neither builtin nor taken is a name, and nothing else is. -/
theorem checkName_eq_ok_iff {t : Token} : m.checkName t = .ok name ↔
    t.word = .identifier name ∧ Opcode.ofWord? name = none ∧ m.contains t.word ≠ true := by
  constructor
  · intro h
    obtain ⟨hword, hop, hnone⟩ := checkName_eq_ok h
    exact ⟨hword, hop, by simp [contains, hnone]⟩
  · rintro ⟨hword, hop, hfree⟩
    rw [hword] at hfree
    simp [checkName, hword, hop, hfree]

/-- A token is refused for these reasons and for no others. -/
theorem checkName_eq_error_iff {t : Token} {e : CompileError} :
    m.checkName t = .error e ↔ Refusal (m.contains · = true) t e := by
  constructor
  · intro h
    unfold checkName at h
    split at h
    · next n hword =>
      split at h
      · next hop =>
        cases h
        obtain ⟨opcode, hop⟩ := Option.isSome_iff_exists.1 hop
        exact .builtin hword hop
      · next hop =>
        split at h
        · next htaken =>
          cases h
          exact .taken hword (Option.not_isSome_iff_eq_none.1 hop) htaken
        · cases h
    · next hliteral =>
      cases h
      refine .literal ?_
      cases hword : t.word with
      | identifier n => exact absurd hword (hliteral n)
      | _ => rfl
  · intro h
    cases h with
    | literal hword =>
      unfold checkName
      split
      · next n hname => rw [hname] at hword; cases hword
      · rfl
    | builtin hword hop => simp [checkName, hword, hop]
    | taken hword hop htaken =>
      rw [hword] at htaken
      simp [checkName, hword, hop, htaken]

/-- A name is refused where it is written. -/
theorem location?_of_error {t : Token} {e : CompileError} (h : m.checkName t = .error e) :
    e.location? = some t.location := by
  cases checkName_eq_error_iff.1 h <;> rfl

/-- A name is refused or not whatever is said about other words. -/
theorem checkName_congr {Body' : Type} {m' : MacroTable Body'} {t : Token}
    (h : m'.contains t.word = m.contains t.word) : m'.checkName t = m.checkName t := by
  simp only [checkName, h]

theorem word_of_invoked? (h : m.invoked? w = some e) : w = .identifier e.1 := by
  have hw := identifier?_of_invoked? h
  cases w with
  | identifier name => rw [Option.some.inj hw]
  | _ => cases hw

theorem mem_names_of_invoked? (h : m.invoked? w = some e) : e.1 ∈ m.names :=
  List.mem_map_of_mem (mem_of_invoked? h)

theorem invoked?_ne_none (h : name ∈ m.names) : m.invoked? (.identifier name) ≠ none := by
  obtain ⟨e, he, rfl⟩ := List.mem_map.1 h
  intro hnone
  have := List.find?_eq_none.1 hnone e he
  simp [Word.isIdentifier, Word.identifier?] at this

theorem invoked?_eq_none_iff : m.invoked? (.identifier name) = none ↔ name ∉ m.names := by
  constructor
  · intro hnone hmem
    exact invoked?_ne_none hmem hnone
  · intro hfree
    rw [Option.eq_none_iff_forall_ne_some]
    intro e he
    cases word_of_invoked? he
    exact hfree (mem_names_of_invoked? he)

/-- A word that is neither builtin nor taken names a macro. -/
theorem checkName_of_free {t : Token} (hword : t.word = .identifier name)
    (hop : Opcode.ofWord? name = none) (hfree : name ∉ m.names) : m.checkName t = .ok name := by
  refine checkName_eq_ok_iff.2 ⟨hword, hop, ?_⟩
  rw [contains, hword, invoked?_eq_none_iff.2 hfree]
  exact Bool.false_ne_true

theorem nodup_insert (h : m.names.Nodup) {t : Token} (hname : m.checkName t = .ok name) :
    (m.insert name body).names.Nodup := by
  obtain ⟨hword, -, hnone⟩ := checkName_eq_ok hname
  rw [hword] at hnone
  rw [names_insert]
  refine List.nodup_append.2 ⟨h, by simp, ?_⟩
  rintro taken htaken other hother rfl
  exact invoked?_eq_none_iff.1 hnone (List.mem_singleton.1 hother ▸ htaken)

theorem noBuiltin_empty : (empty : MacroTable Body).NoBuiltin :=
  nofun

theorem NoBuiltin.insert (h : m.NoBuiltin) {t : Token} (hname : m.checkName t = .ok name) :
    (m.insert name body).NoBuiltin := by
  intro n hn
  rw [names_insert, List.mem_append, List.mem_singleton] at hn
  rcases hn with hn | rfl
  · exact h n hn
  · exact (checkName_eq_ok hname).2.1

theorem NoBuiltin.ofWord?_eq_none (h : m.NoBuiltin) (hw : m.invoked? w = some e) :
    Opcode.ofWord? e.1 = none :=
  h e.1 (mem_names_of_invoked? hw)

/-- A builtin word invokes nothing. -/
theorem NoBuiltin.invoked?_eq_none (h : m.NoBuiltin) {opcode : Opcode}
    (hop : Opcode.ofWord? name = some opcode) : m.invoked? (.identifier name) = none := by
  rw [Option.eq_none_iff_forall_ne_some]
  intro e he
  cases word_of_invoked? he
  cases (h.ofWord?_eq_none he).symm.trans hop

/-- The keyword of a definition invokes nothing. -/
theorem NoBuiltin.invoked?_of_keyword (h : m.NoBuiltin) (hw : w = .identifier "macro") :
    m.invoked? w = none := by
  rw [hw]
  exact h.invoked?_eq_none (rfl : _ = some Opcode.macroWord)

theorem Extends.refl (m : MacroTable Body) : m.Extends m :=
  fun _ _ h => h

theorem Extends.trans {m'' : MacroTable Body} (h : m.Extends m') (h' : m'.Extends m'') :
    m.Extends m'' :=
  fun w e he => h' w e (h w e he)

theorem extends_insert (m : MacroTable Body) (name : String) (body : Body) :
    m.Extends (m.insert name body) := by
  intro w e he
  rw [invoked?_insert, he]
  rfl

/-- What the larger table does not invoke, the smaller one does not either. -/
theorem Extends.invoked?_eq_none (h : m.Extends m') (hw : m'.invoked? w = none) :
    m.invoked? w = none := by
  rw [Option.eq_none_iff_forall_ne_some]
  intro e he
  cases hw.symm.trans (h w e he)

/-! ### Other bodies -/

section

variable {Body' : Type} (f : Body → Body')

/-- The table with the same names and with other bodies. -/
def map (m : MacroTable Body) : MacroTable Body' :=
  ⟨m.entries.map fun e => (e.1, f e.2)⟩

@[simp] theorem names_map (m : MacroTable Body) : (m.map f).names = m.names := by
  simp [names, map]

theorem invoked?_map (m : MacroTable Body) (w : Word) :
    (m.map f).invoked? w = (m.invoked? w).map fun e => (e.1, f e.2) := by
  simp only [invoked?, map, List.find?_map]
  rfl

/-- Whether a name is refused does not depend on bodies. -/
theorem checkName_map (m : MacroTable Body) (t : Token) :
    (m.map f).checkName t = m.checkName t := by
  refine checkName_congr ?_
  rw [contains, contains, invoked?_map, Option.isSome_map]

theorem map_insert (m : MacroTable Body) (name : String) (body : Body) :
    (m.insert name body).map f = (m.map f).insert name (f body) := by
  simp [map, MacroTable.insert]

end

end MacroTable

/-! ## Bodies -/

/-- No token is the word `end`. -/
def EndFree (waiting : List Pending) : Prop :=
  ∀ i ∈ waiting, i.token.isEnd = false

theorem EndFree.tail {i : Pending} {w : List Pending} (h : EndFree (i :: w)) : EndFree w := by
  intro j hj
  exact h j (List.mem_cons_of_mem i hj)

theorem EndFree.append {w w' : List Pending} (h : EndFree w) (h' : EndFree w') :
    EndFree (w ++ w') := by
  intro i hi
  rcases List.mem_append.1 hi with hi | hi
  · exact h i hi
  · exact h' i hi

/-- The element `close` of a list in two parts is in one of them. -/
theorem eq_append_of_append {front back w rest : List Pending} {close : Pending}
    (h : front ++ back = w ++ close :: rest) :
    (∃ front', front = w ++ close :: front' ∧ rest = front' ++ back) ∨
      ∃ w', back = w' ++ close :: rest := by
  rcases List.append_eq_append_iff.1 h with ⟨mid, -, hback⟩ | ⟨mid, hfront, hmid⟩
  · exact .inr ⟨mid, hback⟩
  · cases mid with
    | nil => exact .inr ⟨[], hmid.symm⟩
    | cons i mid =>
      obtain ⟨rfl, hrest⟩ := List.cons.inj hmid
      exact .inl ⟨mid, hfront, hrest⟩

namespace MacroBody

theorem of_mem_pending {b : MacroBody} {name : String} {trail : List String} {i : Pending}
    (h : i ∈ b.pending name trail) : i.token ∈ b.tokens ∧ i.trail = name :: trail := by
  obtain ⟨t, ht, rfl⟩ := List.mem_map.1 h
  exact ⟨ht, rfl⟩

/-- A token of a body knows of the macro that it came from. -/
theorem trail_ne_nil {b : MacroBody} {name : String} {trail : List String} {i : Pending}
    (h : i ∈ b.pending name trail) : i.trail ≠ [] := by
  rw [(of_mem_pending h).2]
  exact List.cons_ne_nil _ _

theorem endFree_pending (b : MacroBody) (name : String) (trail : List String) :
    EndFree (b.pending name trail) := by
  intro i hi
  exact b.endFree i.token (of_mem_pending hi).1

/-- Nothing is cut off exactly where no `end` is waiting. -/
theorem cut?_eq_none_iff {w : List Pending} : cut? w = none ↔ EndFree w := by
  have hdrop : EndFree w ↔ w.dropWhile (!·.token.isEnd) = [] := by
    rw [List.dropWhile_eq_nil_iff]
    exact forall₂_congr fun i _ => by simp
  rw [hdrop, cut?]
  split
  · next hnil => exact iff_of_true rfl hnil
  · next hcons => exact iff_of_false nofun (by rw [hcons]; exact List.cons_ne_nil _ _)

/-- A body is all up to the first `end`, and that `end` is used up. -/
theorem eq_of_cut? {w rest : List Pending} {b : MacroBody} (h : cut? w = some (b, rest)) :
    ∃ inner close, w = inner ++ close :: rest ∧ close.token.isEnd = true ∧
      b.tokens = inner.map (·.token) := by
  unfold cut? at h
  split at h
  · cases h
  · next close rest' hdrop =>
    cases h
    have hend : close.token.isEnd = true := by
      have := List.head?_dropWhile_not (!·.token.isEnd) w
      simpa [hdrop] using this
    refine ⟨w.takeWhile (!·.token.isEnd), close, ?_, hend, rfl⟩
    rw [← hdrop, List.takeWhile_append_dropWhile]

/-- A body is what waits up to the first `end`, wherever that is. -/
theorem cut?_of_append {inner rest : List Pending} {close : Pending} {b : MacroBody}
    (hclose : close.token.isEnd = true) (hb : b.tokens = inner.map (·.token)) :
    cut? (inner ++ close :: rest) = some (b, rest) := by
  have hinner : ∀ i ∈ inner, (!i.token.isEnd) = true := by
    intro i hi
    rw [b.endFree i.token (hb ▸ List.mem_map_of_mem hi)]
    rfl
  have hdrop : (inner ++ close :: rest).dropWhile (!·.token.isEnd) = close :: rest := by
    rw [List.dropWhile_append_of_pos hinner, List.dropWhile_cons_of_neg (by simp [hclose])]
  have htake : (inner ++ close :: rest).takeWhile (!·.token.isEnd) = inner := by
    rw [List.takeWhile_append_of_pos hinner, List.takeWhile_cons_of_neg (by simp [hclose]),
      List.append_nil]
  obtain ⟨tokens, hfree⟩ := b
  obtain rfl : tokens = inner.map (·.token) := hb
  simp only [cut?, hdrop, upToEnd, htake]

/-- What follows the last `end` has no part in cutting. -/
theorem cut?_append {w w' rest : List Pending} {b : MacroBody} (hw' : EndFree w')
    (h : cut? (w ++ w') = some (b, rest)) :
    ∃ rest', cut? w = some (b, rest') ∧ rest = rest' ++ w' := by
  obtain ⟨inner, close, hsplit, hclose, hb⟩ := eq_of_cut? h
  rcases eq_append_of_append hsplit with ⟨rest', rfl, rfl⟩ | ⟨skipped, rfl⟩
  · exact ⟨rest', cut?_of_append hclose hb, rfl⟩
  · cases (hw' close (by simp)).symm.trans hclose

end MacroBody

end StackLang
