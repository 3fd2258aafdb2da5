import Mathlib.Data.List.Induction
import Mathlib.Tactic.IntervalCases
import StackLang.Proofs.Code.Completion
import StackLang.Proofs.Code.Lowered
import StackLang.Proofs.Lowering.Fault
import StackLang.Proofs.Lowering.Placements

/-!
# Errors are found at the earliest token

In a source without definitions a token is an error only if nothing that could follow it would
help.

- Tokens that have all been placed can be completed: the open blocks are closed one after the
  other (`Read.completable`).
- A token that cannot be placed is an error, whatever follows (`Read.lower_of_misplaced`).
  `Misplaced` lists the reasons, by the words of the open blocks.

**Theorem (`lower_earliest_error`).** So the first token after which no completion is left is
where the error is reported. If every token leaves one, then there is a program, or a block is
open at the end of the source, and the innermost one is reported.
-/

namespace StackLang

/-- The tokens spell the code with open blocks. -/
def Draft.SpelledBy (d : Draft) (ts : List Token) : Prop :=
  ∃ ops, Resolve ts ops ∧ ops.map (·.opcode) = d.opcodes

/-- There are tokens after which the source has a program. -/
def Completable (o : Options) (ts : List Token) : Prop :=
  ∃ us p, (lower o (ts ++ us)).result = .ok p

/-- A token that cannot stand where these words, innermost first, have opened blocks, and the
error. -/
inductive Misplaced (words : List Opcode) (t : Token) : CompileError → Prop
  | undefined {word : String} (hword : t.word = .identifier word)
      (hop : Opcode.ofWord? word = none) : Misplaced words t (.undefinedWord t.location word)
  | misfit {op : Operation} {e : CompileError} (hop : t.operation = .ok op)
      (h : Assembly.Misfit op words e) : Misplaced words t e

theorem Misplaced.location? {words : List Opcode} {t : Token} {e : CompileError}
    (h : Misplaced words t e) : e.location? = some t.location := by
  cases h with
  | undefined => rfl
  | misfit hop h => rw [h.location?, (Token.operation_eq_ok hop).2]

/-- The tokens are `ops`, which have been placed to the assembly `a`. -/
structure Read (ts : List Token) (ops : List Operation) (a : Assembly) : Prop where
  resolve : Resolve ts ops
  notMacro : ∀ op ∈ ops, op.opcode ≠ .macroWord
  placed : Assembly.empty.placeAll ops = .ok a

namespace Read

variable {ts : List Token} {t : Token} {ops : List Operation} {op : Operation} {a a' : Assembly}
  {e : CompileError}

theorem nil : Read [] [] .empty :=
  ⟨.nil, nofun, rfl⟩

theorem snoc (h : Read ts ops a) (hop : t.operation = .ok op) (hne : op.opcode ≠ .macroWord)
    (hplace : a.place op = .ok a') : Read (ts ++ [t]) (ops ++ [op]) a' where
  resolve := List.rel_append h.resolve (.cons hop .nil)
  notMacro := by
    intro x hx
    rcases List.mem_append.1 hx with hx | hx
    · exact h.notMacro x hx
    · rwa [List.mem_singleton.1 hx]
  placed := (Assembly.placeAll_append h.placed [op]).trans (Assembly.placeAll_cons hplace [])

/-- What has been read has been read up to every point. -/
theorem exists_take (h : Read ts ops a) (k : Nat) : ∃ ops' a', Read (ts.take k) ops' a' := by
  have hplaced := h.placed
  rw [← List.take_append_drop k ops] at hplaced
  obtain ⟨a₁, hplaced₁, -⟩ := Assembly.exists_of_placeAll_append hplaced
  exact ⟨_, a₁, List.forall₂_take k h.resolve, fun x hx => h.notMacro x (List.mem_of_mem_take hx),
    hplaced₁⟩

/-- The assembly is what some code with open blocks describes. -/
theorem exists_draft (h : Read ts ops a) : ∃ d, Represents a d ops := by
  have hops : ∀ op ∈ ops, op.jump = none ∧ op.opcode ≠ .macroWord := by
    intro op hop
    obtain ⟨t, -, ht⟩ := h.resolve.exists_token hop
    exact ⟨(Token.operation_eq_ok ht).1, h.notMacro op hop⟩
  obtain ⟨d, -, hrep⟩ := Represents.empty.exists_pushes hops h.placed
  exact ⟨d, hrep⟩

/-- A lowering reads the tokens first, whatever follows them. -/
theorem exists_path (h : Read ts ops a) (o : Options) (us : List Token) :
    ∃ mvs s, Lowering.Path o (.start (ts ++ us)) mvs s ∧ s.waiting = Lowering.source us ∧
      s.macros = .empty ∧ s.assembly = a :=
  Lowering.path_of_resolve (s := .start (ts ++ us)) List.map_append rfl h.resolve h.notMacro h.placed

end Read

/-! ## Completions -/

/-- A token with the word of an opcode. -/
def wordToken (o : Opcode) : Token :=
  ⟨⟨"", 0⟩, .identifier o.text⟩

theorem operation_wordToken {f : Frame} {o : Opcode} (h : o ∈ f.closing) :
    (wordToken o).operation = .ok (.plain o ⟨"", 0⟩) := by
  have ho : o = .doLoop ∨ o = .endBlock := by
    cases f <;> simp [Frame.closing] at h <;> tauto
  rcases ho with rfl | rfl <;> rfl

theorem Read.completable {ts : List Token} {ops : List Operation} {a : Assembly}
    (h : Read ts ops a) (o : Options) : Completable o ts := by
  obtain ⟨⟨frames, here⟩, hrep⟩ := h.exists_draft
  obtain ⟨c, hpushes⟩ := Draft.exists_pushes_closing frames here
  have hclosing : Resolve ((frames.flatMap Frame.closing).map wordToken)
      ((frames.flatMap Frame.closing).map (Operation.plain · ⟨"", 0⟩)) := by
    rw [Resolve, List.forall₂_map_left_iff, List.forall₂_map_right_iff, List.forall₂_same]
    intro word hword
    obtain ⟨f, -, hf⟩ := List.mem_flatMap.1 hword
    exact operation_wordToken hf
  have hopcodes : (ops ++ (frames.flatMap Frame.closing).map (Operation.plain · ⟨"", 0⟩)).map
      (·.opcode) = c.opcodes := by
    have hmap : ((frames.flatMap Frame.closing).map (Operation.plain · ⟨"", 0⟩)).map (·.opcode) =
        frames.flatMap Frame.closing := by
      rw [List.map_map]
      exact List.map_id _
    rw [List.map_append, hmap, hrep.opcodes]
    exact hpushes.opcodes_eq.symm
  exact ⟨_, _, lower_of_resolve o (List.rel_append h.resolve hclosing) hopcodes⟩

/-! ## Errors -/

/-- **A misplaced token is an error, whatever follows it.** -/
theorem Read.lower_of_misplaced {ts : List Token} {t : Token} {ops : List Operation} {a : Assembly}
    {e : CompileError} (h : Read ts ops a) (ht : Misplaced a.openers t e) (o : Options)
    (us : List Token) : (lower o (ts ++ t :: us)).result = .error e := by
  obtain ⟨mvs, s, hpath, hq, hmacros, rfl⟩ := h.exists_path o (t :: us)
  have hm : s.macros.invoked? t.word = none := by rw [hmacros]; rfl
  have hfails : Lowering.Fails o s e := by
    rw [Lowering.fails_iff]
    cases ht with
    | undefined hword hop =>
      exact .operation hq hm (Token.operation_of_not_builtin hword hop)
    | misfit hop hmisfit =>
      exact .place hq hm hop hmisfit.opcode_ne_macroWord (Assembly.place_eq_error_iff.2 hmisfit)
  rw [lower, Lowering.run_of_path hpath, Lowering.run_of_fails hfails]

/-- Nothing that could follow a misplaced token helps. -/
theorem Read.not_completable {ts : List Token} {t : Token} {ops : List Operation} {a : Assembly}
    {e : CompileError} (h : Read ts ops a) (ht : Misplaced a.openers t e) (o : Options) :
    ¬ Completable o (ts ++ [t]) := by
  rintro ⟨us, p, hp⟩
  rw [List.append_assoc] at hp
  cases hp.symm.trans (h.lower_of_misplaced ht o us)

/-- Without definitions, a source is read to its end or up to a misplaced token. -/
theorem exists_read {ts : List Token} (hts : ∀ t ∈ ts, t.word ≠ .identifier "macro") :
    (∃ ops a, Read ts ops a) ∨ ∃ before t after ops a e, ts = before ++ t :: after ∧
      Read before ops a ∧ Misplaced a.openers t e := by
  induction ts using List.reverseRecOn with
  | nil => exact .inl ⟨[], .empty, .nil⟩
  | append_singleton ts t ih =>
    rcases ih fun x hx => hts x (List.mem_append_left _ hx) with
      ⟨ops, a, hread⟩ | ⟨before, u, after, ops, a, e, rfl, hread, hu⟩
    · cases hop : t.operation with
      | error e =>
        obtain ⟨word, hword, hbuiltin, rfl⟩ := Token.operation_eq_error hop
        exact .inr ⟨ts, t, [], ops, a, _, rfl, hread, .undefined hword hbuiltin⟩
      | ok op =>
        have hne : op.opcode ≠ .macroWord := fun heq =>
          hts t (by simp) (Token.word_of_operation hop (by rw [heq]; rfl))
        cases hplace : a.place op with
        | error e =>
          exact .inr ⟨ts, t, [], ops, a, e, rfl, hread,
            .misfit hop (Assembly.place_eq_error_iff.1 hplace)⟩
        | ok a' => exact .inl ⟨_, a', hread.snoc hop hne hplace⟩
    · exact .inr ⟨before, u, after ++ [t], ops, a, e, by simp, hread, hu⟩

theorem take_length_succ (before : List Token) (t : Token) (after : List Token) :
    (before ++ t :: after).take (before.length + 1) = before ++ [t] := by
  simp [List.take_append, List.take_of_length_le]

/-! ## The end of a source -/

theorem Resolve.exists_getElem? {ts : List Token} {ops : List Operation} (h : Resolve ts ops)
    {i : Nat} {op : Operation} (hop : ops[i]? = some op) :
    ∃ t, ts[i]? = some t ∧ t.operation = .ok op := by
  induction h generalizing i with
  | nil => cases hop
  | @cons t _ _ _ ht _ ih =>
    cases i with
    | zero => cases hop; exact ⟨t, rfl, ht⟩
    | succ i => exact ih hop

namespace Read

variable {ts : List Token} {ops : List Operation} {a : Assembly} {d : Draft}

/-- What has been read spells one draft. -/
theorem spelledBy_iff (h : Read ts ops a) (hrep : Represents a d ops) {d' : Draft} :
    d'.SpelledBy ts ↔ d' = d := by
  constructor
  · rintro ⟨ops', hresolve, hops'⟩
    have hunique : Relator.RightUnique fun (t : Token) op => t.operation = .ok op :=
      fun t op op' hop hop' => Except.ok.inj (hop.symm.trans hop')
    obtain rfl : ops' = ops := hunique.forall₂ hresolve h.resolve
    exact Draft.opcodes_injective (hops'.symm.trans hrep.opcodes)
  · rintro rfl
    exact ⟨ops, h.resolve, hrep.opcodes⟩

theorem lower_eq (h : Read ts ops a) (o : Options) : (lower o ts).result = a.finish := by
  obtain ⟨mvs, s, hpath, hq, -, rfl⟩ := h.exists_path o []
  rw [List.append_nil] at hpath
  rw [lower, Lowering.run_of_path hpath, Lowering.run_of_queue_nil hq]
  unfold Lowering.finish
  split <;> next hfinish => exact hfinish.symm

/-- The innermost open block is reported at the token that has opened it. -/
theorem finish_eq_error (h : Read ts ops a) (hrep : Represents a d ops) {f : Frame}
    {outer : List Frame} (hframes : d.frames = f :: outer) :
    ∃ t, ts[Frame.span outer + f.offset]? = some t ∧
      a.finish = .error (.neverClosed t.location f.word) := by
  obtain ⟨program, blocks⟩ := a
  have hblocks := hrep.blocks
  rw [hframes] at hblocks
  cases blocks with
  | nil => exact hblocks.elim
  | cons block rest =>
    obtain ⟨⟨hopener, haddr, hlocation⟩, -⟩ := hblocks
    obtain ⟨op, hop, hloc⟩ := Option.map_eq_some_iff.1 hlocation
    rw [haddr] at hop
    obtain ⟨t, ht, hoperation⟩ := h.resolve.exists_getElem? hop
    have hword : block.opener.opcode = f.word := by
      rw [hopener]
      cases f <;> rfl
    refine ⟨t, ht, Assembly.finish_eq_error_iff.2 ⟨block, rest, rfl, ?_⟩⟩
    rw [hword, ← hloc, (Token.operation_eq_ok hoperation).2]

end Read

/-- **Errors are reported at the earliest token possible.** Let a source hold no definition.

- If `t` is the first token after which no continuation has a program, then the error is at `t`, and
  it is the one that says why `t` cannot stand behind the blocks that are open there.
- If there is no such token, then there is a program, or else the error is that a block is never
  closed, at the innermost word that waits. -/
theorem lower_earliest_error (o : Options) {ts : List Token}
    (hts : ∀ t ∈ ts, t.word ≠ .identifier "macro") :
    (∀ k t, ts[k]? = some t → ¬ Completable o (ts.take (k + 1)) →
      (∀ j < k, Completable o (ts.take (j + 1))) →
      ∃ d e, (∀ d' : Draft, d'.SpelledBy (ts.take k) ↔ d' = d) ∧
        Misplaced (d.frames.map Frame.word) t e ∧ (lower o ts).result = .error e ∧
        e.location? = some t.location) ∧
    ((∀ k < ts.length, Completable o (ts.take (k + 1))) →
      ∃ d, (∀ d' : Draft, d'.SpelledBy ts ↔ d' = d) ∧
        match d.frames with
        | [] => ∃ p, (lower o ts).result = .ok p
        | f :: outer => ∃ t, ts[Frame.span outer + f.offset]? = some t ∧
          (lower o ts).result = .error (.neverClosed t.location f.word)) := by
  refine ⟨fun k t hk hnot hleast => ?_, fun hall => ?_⟩
  · rcases exists_read hts with ⟨ops, a, hread⟩ | ⟨before, u, after, ops, a, e, rfl, hread, hu⟩
    · obtain ⟨ops', a', hread'⟩ := hread.exists_take (k + 1)
      exact absurd (hread'.completable o) hnot
    · have hle : before.length ≤ k := by
        by_contra hlt
        obtain ⟨ops', a', hread'⟩ := hread.exists_take (k + 1)
        rw [List.take_append_of_le_length (by omega)] at hnot
        exact hnot (hread'.completable o)
      have hge : k ≤ before.length := by
        by_contra hlt
        have hcompletable := hleast before.length (by omega)
        rw [take_length_succ] at hcompletable
        exact hread.not_completable hu o hcompletable
      obtain rfl : k = before.length := Nat.le_antisymm hge hle
      obtain rfl : u = t := by simpa using hk
      obtain ⟨d, hrep⟩ := hread.exists_draft
      rw [List.take_left' rfl]
      refine ⟨d, e, fun d' => hread.spelledBy_iff hrep, ?_, hread.lower_of_misplaced hu o after,
        hu.location?⟩
      rwa [← hrep.openers_eq]
  · rcases exists_read hts with ⟨ops, a, hread⟩ | ⟨before, u, after, ops, a, e, rfl, hread, hu⟩
    · obtain ⟨d, hrep⟩ := hread.exists_draft
      refine ⟨d, fun d' => hread.spelledBy_iff hrep, ?_⟩
      rw [hread.lower_eq o]
      split
      · next hframes => exact ⟨_, hrep.finish_eq hframes⟩
      · next f outer hframes => exact hread.finish_eq_error hrep hframes
    · have hcompletable := hall before.length (by simp)
      rw [take_length_succ] at hcompletable
      exact absurd hcompletable (hread.not_completable hu o)

/-- In `if 1 do x` the `do` is the error, and in `while 1 do if` the `if` is never closed. -/
theorem lower_earliest_error_do :
    let o : Options := ⟨.tail, some 0, true⟩
    let word (row : Nat) (name : String) : Token := ⟨⟨"a", row⟩, .identifier name⟩
    let one : Token := ⟨⟨"a", 1⟩, .intLiteral 1⟩
    let ts : List Token := [word 0 "if", one, word 2 "do", word 3 "x"]
    let us : List Token := [word 0 "while", one, word 2 "do", word 3 "if"]
    (lower o ts).result = .error (.doWithoutWhile ⟨"a", 2⟩) ∧
      (lower o us).result = .error (.neverClosed ⟨"a", 3⟩ .ifBlock) := by
  intro o word one ts us
  let push : PlainOpcode := ⟨.pushInt, rfl, nofun⟩
  constructor
  · have hread : Read [word 0 "if", one] _ _ := ⟨.cons rfl (.cons rfl .nil), by decide, rfl⟩
    have hmisplaced : Misplaced [.ifBlock] (word 2 "do") _ :=
      .misfit rfl (.doWithoutWhile rfl nofun)
    have hcompletable : ∀ j < 2, Completable o (ts.take (j + 1)) := by
      intro j hj
      obtain ⟨ops, a, hprefix⟩ := hread.exists_take (j + 1)
      interval_cases j <;> exact hprefix.completable o
    have hdirect : ∀ t ∈ ts, t.word ≠ .identifier "macro" := by decide
    obtain ⟨d, e, hd, hmis, herror, -⟩ := (lower_earliest_error o hdirect).1 2 (word 2 "do") rfl
      (hread.not_completable hmisplaced o) hcompletable
    obtain rfl : ⟨[.ifBlock .empty], .plain push .empty⟩ = d :=
      (hd _).1 ⟨_, .cons rfl (.cons rfl .nil), rfl⟩
    cases hmis with
    | undefined hword hop =>
      cases hword
      cases hop
    | misfit hop hmis =>
      cases hop
      cases hmis with
      | doWithoutWhile => exact herror
      | elseWithoutIf h => cases h
  · have hread : Read us _ _ :=
      ⟨.cons rfl (.cons rfl (.cons rfl (.cons rfl .nil))), by decide, rfl⟩
    have hcompletable : ∀ k < us.length, Completable o (us.take (k + 1)) := by
      intro k _
      obtain ⟨ops, a, hprefix⟩ := hread.exists_take (k + 1)
      exact hprefix.completable o
    have hdirect : ∀ t ∈ us, t.word ≠ .identifier "macro" := by decide
    obtain ⟨d, hd, hlower⟩ := (lower_earliest_error o hdirect).2 hcompletable
    obtain rfl : ⟨[.ifBlock .empty, .doLoop .empty (.plain push .empty)], .empty⟩ = d :=
      (hd _).1 ⟨_, .cons rfl (.cons rfl (.cons rfl (.cons rfl .nil))), rfl⟩
    obtain ⟨t, ht, herror⟩ := hlower
    cases ht
    exact herror

end StackLang
