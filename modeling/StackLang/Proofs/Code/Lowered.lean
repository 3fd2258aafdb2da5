import Mathlib.Data.List.Forall2
import StackLang.Proofs.Code.Draft
import StackLang.Proofs.Lowering.Path

/-!
# Lowered programs are nested code

**Theorem (`lower_structured`).** The opcodes of a program that lowering returns have exactly one
derivation as nested code, and its jumps are those of this derivation. The other way round, tokens
whose operations spell nested code lower to these operations with the jumps of the code, wherever
bodies are placed and however few expansions are allowed.

One direction follows a path of the lowering: the operations that it emits have been placed, so
they make an empty draft grow, and at the end no frame is left. The other direction walks through
the tokens; no macro is ever defined, so each of them emits its operation.
-/

namespace StackLang

/-- The opcodes of a program, in address order. -/
def Program.opcodes (p : Program) : List Opcode :=
  p.operations.toList.map (·.opcode)

/-- The jumps of a program, in address order. -/
def Program.jumps (p : Program) : List (Option Nat) :=
  p.operations.toList.map (·.jump)

/-- The program of operations with the jumps of nested code. -/
def Code.program (c : Code) (ops : List Operation) : Program :=
  ⟨(link ops (c.jumps 0)).toArray⟩

theorem map_opcode_link {ops : List Operation} {jumps : List (Option Nat)}
    (h : ops.length = jumps.length) : (link ops jumps).map (·.opcode) = ops.map (·.opcode) := by
  induction ops generalizing jumps with
  | nil => rfl
  | cons op ops ih =>
    cases jumps with
    | nil => cases h
    | cons jump jumps => exact congrArg (op.opcode :: ·) (ih (Nat.succ.inj h))

theorem map_jump_link {ops : List Operation} {jumps : List (Option Nat)}
    (h : ops.length = jumps.length) : (link ops jumps).map (·.jump) = jumps := by
  induction ops generalizing jumps with
  | nil => exact (List.length_eq_zero_iff.1 h.symm).symm
  | cons op ops ih =>
    cases jumps with
    | nil => cases h
    | cons jump jumps => exact congrArg (jump :: ·) (ih (Nat.succ.inj h))

namespace Code

theorem length_eq_of_opcodes {c : Code} {ops : List Operation}
    (h : ops.map (·.opcode) = c.opcodes) : ops.length = (c.jumps 0).length := by
  rw [length_jumps, ← length_opcodes, ← h, List.length_map]

theorem opcodes_program {c : Code} {ops : List Operation} (h : ops.map (·.opcode) = c.opcodes) :
    (c.program ops).opcodes = c.opcodes :=
  (map_opcode_link (length_eq_of_opcodes h)).trans h

theorem jumps_program {c : Code} {ops : List Operation} (h : ops.map (·.opcode) = c.opcodes) :
    (c.program ops).jumps = c.jumps 0 :=
  map_jump_link (length_eq_of_opcodes h)

theorem size_program {c : Code} {ops : List Operation} (h : ops.map (·.opcode) = c.opcodes) :
    (c.program ops).size = c.size := by
  rw [← length_opcodes, ← opcodes_program h, Program.opcodes, List.length_map,
    Array.length_toList]
  rfl

end Code

/-- The operations of the tokens `ts`, one for each and in the same order. -/
def Resolve (ts : List Token) (ops : List Operation) : Prop :=
  List.Forall₂ (fun t op => t.operation = .ok op) ts ops

theorem Resolve.exists_token {ts : List Token} {ops : List Operation} (h : Resolve ts ops)
    {op : Operation} (hop : op ∈ ops) : ∃ t ∈ ts, t.operation = .ok op := by
  induction h with
  | nil => cases hop
  | @cons t _ ts _ ht _ ih =>
    rcases List.mem_cons.1 hop with rfl | hop
    · exact ⟨t, List.mem_cons_self, ht⟩
    · obtain ⟨t', ht', hop'⟩ := ih hop
      exact ⟨t', List.mem_cons_of_mem t ht', hop'⟩

/-! ## From a program to its code -/

/-- **A program that lowering returns is nested code**, made of operations of tokens. -/
theorem exists_code_of_lower {o : Options} {ts : List Token} {p : Program}
    (h : (lower o ts).result = .ok p) :
    ∃ (c : Code) (ops : List Operation), ops.map (·.opcode) = c.opcodes ∧ p = c.program ops ∧
      ∀ op ∈ ops, ∃ t : Token, t.operation = .ok op := by
  obtain ⟨mvs, s, hpath, -, hfinish⟩ := Lowering.path_of_run_ok h
  have hemitted : ∀ op ∈ Lowering.emitted mvs, op.jump = none ∧ op.opcode ≠ .macroWord := by
    intro op hop
    obtain ⟨⟨t, ht⟩, hm⟩ := hpath.of_mem_emitted hop
    exact ⟨(Token.operation_eq_ok ht).1, hm⟩
  obtain ⟨⟨frames, c⟩, -, hrep⟩ := Represents.empty.exists_pushes hemitted hpath.placeAll
  obtain rfl : frames = [] := hrep.frames_eq_nil hfinish
  refine ⟨c, Lowering.emitted mvs, hrep.opcodes, ?_, fun op hop => (hpath.of_mem_emitted hop).1⟩
  exact Except.ok.inj (hfinish.symm.trans (hrep.finish_eq rfl))

/-! ## From code to its program -/

namespace Lowering

/-- Without macros, tokens whose operations can all be placed are lowered one after the other,
whatever waits behind them. -/
theorem path_of_resolve {o : Options} {s : Lowering} {ts : List Token} {ops : List Operation}
    {a : Assembly} {rest : List Pending} (hq : s.waiting = ts.map (⟨·, []⟩) ++ rest)
    (hmacros : s.macros = .empty) (hts : Resolve ts ops) (hm : ∀ op ∈ ops, op.opcode ≠ .macroWord)
    (hplace : s.assembly.placeAll ops = .ok a) :
    ∃ mvs s', Path o s mvs s' ∧ s'.waiting = rest ∧ s'.macros = .empty ∧ s'.assembly = a := by
  induction hts generalizing s with
  | nil => exact ⟨[], s, .nil s, hq, hmacros, Except.ok.inj hplace⟩
  | @cons t op ts ops ht hts ih =>
    rw [Assembly.placeAll] at hplace
    split at hplace
    · cases hplace
    · next a₁ hplace₁ =>
      obtain ⟨s₁, hstep, hq₁, hmacros₁, rfl⟩ : ∃ s₁, Step o s (.emit op) s₁ ∧
          s₁.waiting = ts.map (⟨·, []⟩) ++ rest ∧ s₁.macros = .empty ∧ s₁.assembly = a₁ :=
        ⟨_, .emit hq (by rw [hmacros]; rfl) ht (hm op List.mem_cons_self) hplace₁, rfl, hmacros,
          rfl⟩
      obtain ⟨mvs, s', hpath, hend, hempty, ha⟩ :=
        ih hq₁ hmacros₁ (fun x hx => hm x (List.mem_cons_of_mem op hx)) hplace
      exact ⟨_, s', .cons hstep hpath, hend, hempty, ha⟩

end Lowering

/-- **Nested code is lowered to its program.** -/
theorem lower_of_resolve (o : Options) {ts : List Token} {ops : List Operation} {c : Code}
    (hts : Resolve ts ops) (hops : ops.map (·.opcode) = c.opcodes) :
    (lower o ts).result = .ok (c.program ops) := by
  have hjump : ∀ op ∈ ops, op.jump = none := by
    intro op hop
    obtain ⟨t, -, ht⟩ := hts.exists_token hop
    exact (Token.operation_eq_ok ht).1
  have hm : ∀ op ∈ ops, op.opcode ≠ .macroWord := by
    intro op hop heq
    refine c.macroWord_notMem_opcodes ?_
    rw [← hops, ← heq]
    exact List.mem_map_of_mem hop
  have hpushes := Draft.pushes_opcodes c [] .empty
  rw [← hops] at hpushes
  obtain ⟨a, hplace, hrep⟩ := Represents.empty.placeAll hjump hpushes
  obtain ⟨mvs, s, hpath, hend, -, rfl⟩ :=
    Lowering.path_of_resolve (o := o) (s := .start ts) (List.append_nil _).symm rfl hts hm hplace
  exact Lowering.run_ok_of_path hpath hend (hrep.finish_eq rfl)

/-- **Lowered programs are exactly nested code.** What lowering returns has one derivation and the
jumps of this derivation; and tokens that spell nested code are lowered to it, whatever the
options. No token of the second part is the word `macro`, because nested code does not spell it. -/
theorem lower_structured (o : Options) (ts : List Token) :
    (∀ p, (lower o ts).result = .ok p →
      (∃! c : Code, c.opcodes = p.opcodes) ∧
        ∀ c : Code, c.opcodes = p.opcodes → p.jumps = c.jumps 0) ∧
    ∀ (ops : List Operation) (c : Code), Resolve ts ops → ops.map (·.opcode) = c.opcodes →
      (lower o ts).result = .ok (c.program ops) := by
  refine ⟨fun p hp => ?_, fun ops c hts hops => lower_of_resolve o hts hops⟩
  obtain ⟨c, ops, hops, rfl, -⟩ := exists_code_of_lower hp
  rw [Code.opcodes_program hops, Code.jumps_program hops]
  refine ⟨⟨c, rfl, fun d hd => Code.opcodes_injective hd⟩, fun d hd => ?_⟩
  rw [Code.opcodes_injective hd]

/-- `while dup do 1 end` and its program, with bodies in place and no expansion allowed. -/
theorem lower_structured_while :
    let ts : List Token := [⟨⟨"a", 0⟩, .identifier "while"⟩, ⟨⟨"a", 0⟩, .identifier "dup"⟩,
      ⟨⟨"a", 0⟩, .identifier "do"⟩, ⟨⟨"a", 1⟩, .intLiteral 1⟩, ⟨⟨"a", 2⟩, .identifier "end"⟩]
    let p : Program := ⟨#[⟨.whileLoop, none, none, ⟨"a", 0⟩⟩, ⟨.dup, none, none, ⟨"a", 0⟩⟩,
      ⟨.doLoop, none, some 5, ⟨"a", 0⟩⟩, ⟨.pushInt, some (.int 1), none, ⟨"a", 1⟩⟩,
      ⟨.endBlock, none, some 0, ⟨"a", 2⟩⟩]⟩
    (lower ⟨.inPlace, some 0, true⟩ ts).result = .ok p ∧
      (∃! c : Code, c.opcodes = p.opcodes) ∧
        ∀ c : Code, c.opcodes = p.opcodes → p.jumps = c.jumps 0 := by
  intro ts p
  have hlower : (lower ⟨.inPlace, some 0, true⟩ ts).result = .ok p :=
    (lower_structured ⟨.inPlace, some 0, true⟩ ts).2
      [.plain .whileLoop ⟨"a", 0⟩, .plain .dup ⟨"a", 0⟩, .plain .doLoop ⟨"a", 0⟩,
        .pushInt 1 ⟨"a", 1⟩, .plain .endBlock ⟨"a", 2⟩]
      (.loop (.plain ⟨.dup, rfl, nofun⟩ .empty) (.plain ⟨.pushInt, rfl, nofun⟩ .empty) .empty)
      (.cons rfl (.cons rfl (.cons rfl (.cons rfl (.cons rfl .nil))))) rfl
  exact ⟨hlower, (lower_structured ⟨.inPlace, some 0, true⟩ ts).1 p hlower⟩

end StackLang
