import StackLang.Proofs.Lowering.Termination

/-!
# Other names for macros

A renaming gives every identifier another one, no two the same, and leaves the builtin words alone
(`Renaming`). It acts on tokens, macros, states and moves of a lowering, and on errors; operations
have no names.

**Theorem (`Step.rename`).** Renaming a lowering renames its steps: names are compared with each
other and with the builtin words, and a renaming changes neither answer. The failures are renamed
too (`Fails.rename`).

**Theorem (`lower_rename`).** So a renamed source has the same program as the source, or the same
error with the other name.
-/

namespace StackLang

theorem Opcode.mem_builtins {word : String} {o : Opcode} :
    (word, o) ∈ builtins ↔ ofWord? word = some o := by
  simp [builtins, ofWord?_eq_some_iff, mem_all]

/-- Other names for identifiers, except for the builtin words. -/
structure Renaming where
  name : String → String
  injective : Function.Injective name
  builtin : ∀ b ∈ Opcode.builtins, name b.1 = b.1

variable (f : Renaming)

namespace Renaming

theorem name_of_builtin {n : String} {o : Opcode} (h : Opcode.ofWord? n = some o) :
    f.name n = n :=
  f.builtin (n, o) (Opcode.mem_builtins.2 h)

/-- A new name is a builtin word only if the old name is. -/
theorem ofWord?_name (n : String) : Opcode.ofWord? (f.name n) = Opcode.ofWord? n := by
  cases h : Opcode.ofWord? (f.name n) with
  | none =>
    cases hn : Opcode.ofWord? n with
    | none => rfl
    | some o => rw [f.name_of_builtin hn, hn] at h; cases h
  | some o =>
    have hfix : f.name n = n := f.injective (f.name_of_builtin h)
    rw [← h, hfix]

theorem name_eq_iff {n : String} {o : Opcode} {word : String} (h : Opcode.ofWord? word = some o) :
    f.name n = word ↔ n = word := by
  have hiff : f.name n = f.name word ↔ n = word := f.injective.eq_iff
  rwa [f.name_of_builtin h] at hiff

/-- The renaming that exchanges two names. -/
def swap (a b : String) (ha : Opcode.ofWord? a = none) (hb : Opcode.ofWord? b = none) :
    Renaming where
  name n := if n = a then b else if n = b then a else n
  injective n m h := by grind
  builtin := by
    rintro ⟨n, o⟩ hn
    have hn := Opcode.mem_builtins.1 hn
    grind

end Renaming

/-! ## Renaming what a lowering works on -/

/-- Literals have no name. -/
def Word.rename : Word → Word
  | identifier n => identifier (f.name n)
  | literal => literal

def Token.rename (t : Token) : Token :=
  { t with word := t.word.rename f }

theorem Word.isIdentifier_rename (w : Word) (n : String) :
    (w.rename f).isIdentifier (f.name n) = w.isIdentifier n := by
  cases w with
  | identifier m => simp [rename, isIdentifier, identifier?, f.injective.eq_iff]
  | _ => rfl

theorem Word.rename_eq_identifier_iff {w : Word} {word : String} {o : Opcode}
    (h : Opcode.ofWord? word = some o) :
    w.rename f = .identifier word ↔ w = .identifier word := by
  cases w with
  | identifier n => simp [rename, f.name_eq_iff h]
  | _ => exact Iff.rfl

theorem Token.isEnd_rename (t : Token) : (t.rename f).isEnd = t.isEnd := by
  have hend : f.name "end" = "end" := f.name_of_builtin (o := .endBlock) rfl
  have h := t.word.isIdentifier_rename f "end"
  rwa [hend] at h

def MacroBody.rename (b : MacroBody) : MacroBody where
  tokens := b.tokens.map (·.rename f)
  endFree t ht := by
    obtain ⟨t₀, ht₀, rfl⟩ := List.mem_map.1 ht
    rw [t₀.isEnd_rename f, b.endFree t₀ ht₀]

def Pending.rename (i : Pending) : Pending :=
  ⟨i.token.rename f, i.trail.map f.name⟩

def MacroTable.rename (m : MacroTable MacroBody) : MacroTable MacroBody :=
  ⟨m.entries.map fun e => (f.name e.1, e.2.rename f)⟩

/-- What an error says of a name, it says of the new name. -/
def CompileError.rename : CompileError → CompileError
  | incompleteMacro l n => incompleteMacro l (f.name n)
  | recursiveMacro l n => recursiveMacro l (f.name n)
  | expansionLimit l n limit => expansionLimit l (f.name n) limit
  | undefinedWord l n => undefinedWord l (f.name n)
  | macroRedefinition l n => macroRedefinition l (f.name n)
  | reservedMacroName l n => reservedMacroName l (f.name n)
  | e => e

namespace Lowering

def rename (s : Lowering) : Lowering where
  queue := .ofList (s.waiting.map (·.rename f))
  macros := s.macros.rename f
  assembly := s.assembly
  expansions := s.expansions

def Move.rename : Move → Move
  | emit op => emit op
  | expand i n b => expand (i.rename f) (f.name n) (b.rename f)
  | define t n b => define (t.rename f) (f.name n) (b.rename f)

end Lowering

/-! ## Every part of a step -/

/-- The operation of a token does not depend on names of macros. -/
theorem Token.operation_rename (t : Token) :
    (t.rename f).operation = t.operation.mapError (·.rename f) := by
  obtain ⟨l, w⟩ := t
  cases w with
  | identifier n =>
    simp only [operation, rename, Word.rename, f.ofWord?_name]
    cases Opcode.ofWord? n <;> rfl
  | _ => rfl

namespace MacroTable

variable (m : MacroTable MacroBody)

theorem invoked?_rename (w : Word) : (m.rename f).invoked? (w.rename f) =
    (m.invoked? w).map fun e => (f.name e.1, e.2.rename f) := by
  simp only [invoked?, rename, List.find?_map, Function.comp_def, w.isIdentifier_rename f]

/-- The same names are refused, for the same reasons. -/
theorem checkName_rename (t : Token) : (m.rename f).checkName (t.rename f) =
    ((m.checkName t).map f.name).mapError (·.rename f) := by
  obtain ⟨l, w⟩ := t
  cases w with
  | identifier n =>
    have hcontains : (m.rename f).contains (.identifier (f.name n)) =
        m.contains (.identifier n) := by
      have h := m.invoked?_rename f (.identifier n)
      simp only [Word.rename] at h
      rw [contains, h, Option.isSome_map, contains]
    simp only [checkName, Token.rename, Word.rename, f.ofWord?_name, hcontains]
    split
    · rfl
    · split <;> rfl
  | _ => rfl

theorem rename_insert (name : String) (body : MacroBody) :
    (m.insert name body).rename f = (m.rename f).insert (f.name name) (body.rename f) := by
  simp [insert, rename]

end MacroTable

namespace MacroBody

theorem pending_rename (b : MacroBody) (name : String) (trail : List String) :
    (b.rename f).pending (f.name name) (trail.map f.name) =
      (b.pending name trail).map (·.rename f) := by
  simp [pending, rename, Pending.rename, Function.comp_def]

/-- Renaming leaves every `end` where it is, so bodies are cut off in the same places. -/
theorem cut?_rename (w : List Pending) : cut? (w.map (·.rename f)) =
    (cut? w).map fun p => (p.1.rename f, p.2.map (·.rename f)) := by
  have hend (i : Pending) : (i.rename f).token.isEnd = i.token.isEnd := i.token.isEnd_rename f
  cases h : cut? w with
  | none =>
    rw [cut?_eq_none_iff] at h
    refine cut?_eq_none_iff.2 fun i hi => ?_
    obtain ⟨j, hj, rfl⟩ := List.mem_map.1 hi
    rw [hend, h j hj]
  | some p =>
    obtain ⟨b, rest⟩ := p
    obtain ⟨inner, close, rfl, hclose, hb⟩ := eq_of_cut? h
    rw [List.map_append, List.map_cons]
    refine cut?_of_append ((hend close).trans hclose) ?_
    have htokens : (b.rename f).tokens = b.tokens.map (·.rename f) := rfl
    rw [htokens, hb, List.map_map, List.map_map]
    rfl

end MacroBody

namespace Lowering

variable {o : Options} {s s' : Lowering} {mv : Move} {mvs : List Move} {e : CompileError}

theorem waiting_rename (s : Lowering) : (s.rename f).waiting = s.waiting.map (·.rename f) := rfl

theorem waiting_rename_cons {i : Pending} {rest : List Pending} (hq : s.waiting = i :: rest) :
    (s.rename f).waiting = i.rename f :: rest.map (·.rename f) := by
  rw [waiting_rename, hq, List.map_cons]

theorem invoked?_rename (s : Lowering) (i : Pending) :
    (s.rename f).macros.invoked? (i.rename f).token.word =
      (s.macros.invoked? i.token.word).map fun e => (f.name e.1, e.2.rename f) :=
  s.macros.invoked?_rename f i.token.word

theorem invoked?_rename_of_none {i : Pending} (hm : s.macros.invoked? i.token.word = none) :
    (s.rename f).macros.invoked? (i.rename f).token.word = none := by
  rw [invoked?_rename, hm, Option.map_none]

theorem invoked?_rename_of_some {i : Pending} {name : String} {body : MacroBody}
    (hm : s.macros.invoked? i.token.word = some (name, body)) :
    (s.rename f).macros.invoked? (i.rename f).token.word = some (f.name name, body.rename f) := by
  rw [invoked?_rename, hm, Option.map_some]

theorem mem_trail_rename {i : Pending} {name : String} :
    f.name name ∈ (i.rename f).trail ↔ name ∈ i.trail :=
  List.mem_map_of_injective f.injective

theorem keyword_rename {i : Pending} (hkey : i.token.word = .identifier "macro") :
    (i.rename f).token.word = .identifier "macro" :=
  (Word.rename_eq_identifier_iff f (o := .macroWord) rfl).2 hkey

theorem operation_rename_of_ok {i : Pending} {op : Operation} (hop : i.token.operation = .ok op) :
    (i.rename f).token.operation = .ok op := by
  have h := i.token.operation_rename f
  rwa [hop] at h

theorem checkName_rename_of_ok {i : Pending} {name : String}
    (hname : s.macros.checkName i.token = .ok name) :
    (s.rename f).macros.checkName (i.rename f).token = .ok (f.name name) := by
  have h := s.macros.checkName_rename f i.token
  rwa [hname] at h

theorem start_rename (ts : List Token) :
    (start ts).rename f = start (ts.map (·.rename f)) := by
  have hwaiting : (start ts).waiting.map (·.rename f) =
      (ts.map (·.rename f)).map (⟨·, []⟩) := by
    rw [waiting_start, List.map_map, List.map_map]
    rfl
  rw [rename, hwaiting]
  rfl

theorem merge_rename (placement : Placement) (rest body : List Pending) :
    merge placement (rest.map (·.rename f)) (body.map (·.rename f)) =
      (merge placement rest body).map (·.rename f) := by
  cases placement <;> exact List.map_append.symm

/-! ## Renaming a lowering -/

/-- **Renaming renames the steps.** -/
theorem Step.rename (h : Step o s mv s') : Step o (s.rename f) (mv.rename f) (s'.rename f) := by
  cases h with
  | @emit i rest op a hq hm hop hne hplace =>
    exact .emit (waiting_rename_cons f hq) (invoked?_rename_of_none f hm)
      (operation_rename_of_ok f hop) hne hplace
  | @expand i rest name body hq hm hfree hlimit =>
    have hstep := Step.expand (waiting_rename_cons f hq) (invoked?_rename_of_some f hm)
      (mt (mem_trail_rename f).1 hfree) hlimit
    rw [Pending.rename, body.pending_rename, merge_rename] at hstep
    exact hstep
  | @define i j rest rest' name body hq hm hkey hname hcut =>
    have hcut' := MacroBody.cut?_rename f rest
    rw [hcut, Option.map_some] at hcut'
    have hstep := Step.define (o := o) (waiting_rename_cons f hq) (invoked?_rename_of_none f hm)
      (keyword_rename f hkey) (checkName_rename_of_ok f hname) hcut'
    rw [Lowering.rename, ← s.macros.rename_insert] at hstep
    exact hstep

theorem Path.rename (h : Path o s mvs s') :
    Path o (s.rename f) (mvs.map (·.rename f)) (s'.rename f) := by
  induction h with
  | nil s => exact .nil (s.rename f)
  | cons hstep _ ih => exact .cons (hstep.rename f) ih

/-- A misplaced control word has no name. -/
theorem rename_of_misfit {op : Operation} {words : List Opcode}
    (h : Assembly.Misfit op words e) : e.rename f = e := by
  cases h <;> rfl

/-- **Renaming renames the failures.** -/
theorem Fails.rename (h : Fails o s e) : Fails o (s.rename f) (e.rename f) := by
  rw [fails_iff] at h ⊢
  cases h with
  | @recursive i rest name body hq hm hmem =>
    exact .recursive (i := i.rename f) (waiting_rename_cons f hq) (invoked?_rename_of_some f hm)
      ((mem_trail_rename f).2 hmem)
  | @limit i rest name body limit hq hm hfree hlimit hcount =>
    exact .limit (i := i.rename f) (waiting_rename_cons f hq) (invoked?_rename_of_some f hm)
      (mt (mem_trail_rename f).1 hfree) hlimit hcount
  | @operation i rest _ hq hm hop =>
    have hop' := i.token.operation_rename f
    rw [hop] at hop'
    exact .operation (waiting_rename_cons f hq) (invoked?_rename_of_none f hm) hop'
  | @place i rest op _ hq hm hop hne hplace =>
    rw [rename_of_misfit f (Assembly.place_eq_error_iff.1 hplace)]
    exact .place (waiting_rename_cons f hq) (invoked?_rename_of_none f hm)
      (operation_rename_of_ok f hop) hne hplace
  | @noName i hq hm hkey =>
    exact .noName (i := i.rename f) (waiting_rename_cons f hq) (invoked?_rename_of_none f hm)
      (keyword_rename f hkey)
  | @name i j rest _ hq hm hkey hname =>
    have hname' := s.macros.checkName_rename f j.token
    rw [hname] at hname'
    exact .name (waiting_rename_cons f hq) (invoked?_rename_of_none f hm) (keyword_rename f hkey)
      hname'
  | @unfinished i j rest name hq hm hkey hname hcut =>
    have hcut' := MacroBody.cut?_rename f rest
    rw [hcut, Option.map_none] at hcut'
    exact .unfinished (j := j.rename f) (waiting_rename_cons f hq) (invoked?_rename_of_none f hm)
      (keyword_rename f hkey) (checkName_rename_of_ok f hname) hcut'

/-- A block that is never closed has no name. -/
theorem mapError_finish (a : Assembly) : a.finish.mapError (·.rename f) = a.finish := by
  obtain ⟨program, blocks⟩ := a
  cases blocks <;> rfl

/-- **Renaming renames the result.** -/
theorem run_rename (s : Lowering) (log log' : Array Event) :
    (run o (s.rename f) log).result = (run o s log').result.mapError (·.rename f) := by
  obtain ⟨mvs, hpath, hend⟩ := exists_path_last o s
  have hpath' := hpath.rename f
  rcases hpath.result_of_halted hend log' with ⟨hnil, hresult⟩ | ⟨e, hfails, hresult⟩
  · have hnil' : ((last o s).rename f).waiting = [] := by rw [waiting_rename, hnil, List.map_nil]
    have hfinish : (run o (s.rename f) log).result = ((last o s).rename f).assembly.finish :=
      hpath'.result_of_waiting_nil hnil' log
    rw [hresult, hfinish, mapError_finish]
    rfl
  · rw [hresult, hpath'.result_of_fails (hfails.rename f) log]
    rfl

end Lowering

/-- **Names do not matter.** Under a renaming a source keeps its program, and an error keeps its
kind and its place and has the new name where it had the old one. -/
theorem lower_rename (o : Options) (ts : List Token) :
    (lower o (ts.map (·.rename f))).result =
      (lower o ts).result.mapError (·.rename f) := by
  rw [lower, lower, ← Lowering.start_rename]
  exact Lowering.run_rename f _ _ _

/-- `macro f 1 end f g`, where `g` is undefined, with the two names exchanged. -/
theorem lower_rename_swap :
    let f : Renaming := .swap "f" "g" rfl rfl
    let o : Options := ⟨.inPlace, none, true⟩
    let word (name : String) : Token := ⟨⟨"a", 0⟩, .identifier name⟩
    let ts : List Token := [word "macro", word "f", ⟨⟨"a", 0⟩, .intLiteral 1⟩, word "end",
      word "f", word "g"]
    ts.map (·.rename f) = [word "macro", word "g", ⟨⟨"a", 0⟩, .intLiteral 1⟩, word "end",
      word "g", word "f"] ∧
    (lower o (ts.map (·.rename f))).result = .error (.undefinedWord ⟨"a", 0⟩ "f") := by
  intro f o word ts
  have hpath : ∃ mvs s, Lowering.Path o (.start ts) mvs s ∧
      Lowering.Fails o s (.undefinedWord ⟨"a", 0⟩ "g") :=
    ⟨_, _, .cons (.define rfl rfl rfl rfl rfl) (.cons (.expand rfl rfl (by decide) nofun)
      (.cons (.emit rfl rfl rfl nofun rfl) (.nil _))), _, .ofList [], rfl, rfl⟩
  obtain ⟨mvs, s, hpath, hfails⟩ := hpath
  have hts : (lower o ts).result = .error (.undefinedWord ⟨"a", 0⟩ "g") := by
    rw [lower, Lowering.run_of_path hpath, Lowering.run_of_fails hfails]
  refine ⟨rfl, ?_⟩
  rw [lower_rename, hts]
  rfl

end StackLang
