import Mathlib.Data.List.Basic
import StackLang.Program.Check

/-!
# What the check of a program reports

`Operation.Sound` says what an operation has to be like in a program of a given size: jumps for
control operations and for no others, literals for literal pushes and for no others.
`Operation.Breaks` says the same the other way round: which rules an operation breaks.

**Theorem (`violations_eq_nil_iff`).** The check finds nothing exactly if all operations are sound.

**Theorem (`violations_exact`).** The check lists every rule that an operation breaks, at its
address, and nothing else. The list is in the order of the addresses, and at one address a broken
jump comes before a broken literal (`Violation.Before`); so nothing is listed twice.
-/

namespace StackLang

/-! ## Sound operations -/

/-- The operation keeps the rules of a program of `size` operations. -/
structure Operation.Sound (op : Operation) (size : Nat) : Prop where
  jump : op.opcode.hasJump = true → ∃ target ≤ size, op.jump = some target
  noJump : op.opcode.hasJump = false → op.jump = none
  int : op.opcode = .pushInt → ∃ value, op.immediate = some (.int value)
  str : op.opcode = .pushStr → ∃ text, op.immediate = some (.str text)
  noImmediate : op.opcode ≠ .pushInt → op.opcode ≠ .pushStr → op.immediate = none

namespace Operation

variable {op : Operation} {size : Nat}

theorem jumpFault?_eq_none_iff : op.jumpFault? size = none ↔
    (op.opcode.hasJump = true → ∃ target ≤ size, op.jump = some target) ∧
      (op.opcode.hasJump = false → op.jump = none) := by
  unfold jumpFault?
  cases op.opcode.hasJump <;> cases op.jump <;> simp

theorem immediateFault?_eq_none_iff : op.immediateFault? = none ↔
    (op.opcode = .pushInt → ∃ value, op.immediate = some (.int value)) ∧
      (op.opcode = .pushStr → ∃ text, op.immediate = some (.str text)) ∧
      (op.opcode ≠ .pushInt → op.opcode ≠ .pushStr → op.immediate = none) := by
  unfold immediateFault?
  rcases op.immediate with _ | ⟨value⟩ | ⟨text⟩ <;> cases op.opcode <;> simp

theorem faults_eq_nil_iff : op.faults size = [] ↔ op.Sound size := by
  rw [faults, List.append_eq_nil_iff, Option.toList_eq_nil_iff, Option.toList_eq_nil_iff,
    jumpFault?_eq_none_iff, immediateFault?_eq_none_iff]
  constructor
  · rintro ⟨⟨hjump, hnone⟩, hint, hstr, hplain⟩
    exact ⟨hjump, hnone, hint, hstr, hplain⟩
  · intro h
    exact ⟨⟨h.jump, h.noJump⟩, h.int, h.str, h.noImmediate⟩

end Operation

/-- **The check finds nothing exactly in sound programs.** -/
theorem Program.violations_eq_nil_iff {p : Program} :
    p.violations = [] ↔ ∀ op ∈ p.operations.toList, op.Sound p.size := by
  rw [violations, List.flatMap_eq_nil_iff]
  constructor
  · intro h op hop
    obtain ⟨addr, haddr⟩ := List.mem_iff_getElem?.1 hop
    have hfaults := h (op, addr) (List.mem_zipIdx_iff_getElem?.2 haddr)
    exact Operation.faults_eq_nil_iff.1 (List.map_eq_nil_iff.1 hfaults)
  · rintro h ⟨op, addr⟩ hmem
    have hop : op ∈ p.operations.toList :=
      List.mem_iff_getElem?.2 ⟨addr, List.mem_zipIdx_iff_getElem?.1 hmem⟩
    exact List.map_eq_nil_iff.2 (Operation.faults_eq_nil_iff.2 (h op hop))

/-! ## Broken rules -/

/-- The control words that have to jump. Where a `while` leads is up to its `do`. -/
def Opcode.jumping : List Opcode :=
  [.ifBlock, .elseBlock, .doLoop, .endBlock]

theorem Opcode.hasJump_iff {o : Opcode} : o.hasJump = true ↔ o ∈ jumping := by
  cases o <;> decide

/-- The literal that an opcode asks for: one of its kind for a literal push, and none for any other
opcode. -/
inductive Opcode.Carries : Opcode → Option Immediate → Prop
  | int (value : Int64) : Carries .pushInt (some (.int value))
  | str (text : String) : Carries .pushStr (some (.str text))
  | plain {o : Opcode} (hint : o ≠ .pushInt) (hstr : o ≠ .pushStr) : Carries o none

/-- The operation breaks a rule of a program of `size` operations. -/
inductive Operation.Breaks (op : Operation) (size : Nat) : Fault → Prop
  | unresolvedJump (hop : op.opcode ∈ Opcode.jumping) (hjump : op.jump = none) :
      Breaks op size .unresolvedJump
  | jumpOutOfRange {target : Nat} (hop : op.opcode ∈ Opcode.jumping)
      (hjump : op.jump = some target) (hsize : size < target) :
      Breaks op size (.jumpOutOfRange target size)
  | unexpectedJump {target : Nat} (hop : op.opcode ∉ Opcode.jumping)
      (hjump : op.jump = some target) : Breaks op size .unexpectedJump
  | badImmediate (himmediate : ¬ op.opcode.Carries op.immediate) : Breaks op size .badImmediate

namespace Operation

variable {op : Operation} {size : Nat} {fault : Fault}

/-- The broken rules but one are about jumps, and an operation breaks one of them at most. -/
theorem jumpFault?_eq_some_iff :
    op.jumpFault? size = some fault ↔ op.Breaks size fault ∧ fault ≠ .badImmediate := by
  have hasJump := Opcode.hasJump_iff (o := op.opcode)
  constructor
  · intro h
    unfold jumpFault? at h
    split at h
    · next hop hjump =>
      cases h
      exact ⟨.unresolvedJump (hasJump.1 hop) hjump, nofun⟩
    · next target hop hjump =>
      split at h
      · next hsize =>
        cases h
        exact ⟨.jumpOutOfRange (hasJump.1 hop) hjump hsize, nofun⟩
      · cases h
    · next target hop hjump =>
      cases h
      exact ⟨.unexpectedJump (fun hmem => by simp [hasJump.2 hmem] at hop) hjump, nofun⟩
    · cases h
  · rintro ⟨hbreaks, hne⟩
    cases hbreaks with
    | unresolvedJump hop hjump => simp [jumpFault?, hasJump.2 hop, hjump]
    | jumpOutOfRange hop hjump hsize => simp [jumpFault?, hasJump.2 hop, hjump, hsize]
    | unexpectedJump hop hjump =>
      have hop' : op.opcode.hasJump = false := Bool.eq_false_iff.2 fun h => hop (hasJump.1 h)
      simp [jumpFault?, hop', hjump]
    | badImmediate => exact absurd rfl hne

theorem immediateFault?_eq_none_iff_carries :
    op.immediateFault? = none ↔ op.opcode.Carries op.immediate := by
  rw [immediateFault?_eq_none_iff]
  generalize op.opcode = opcode, op.immediate = immediate
  constructor
  · rintro ⟨hint, hstr, hplain⟩
    by_cases hpushInt : opcode = .pushInt
    · obtain ⟨value, rfl⟩ := hint hpushInt
      exact hpushInt ▸ .int value
    · by_cases hpushStr : opcode = .pushStr
      · obtain ⟨text, rfl⟩ := hstr hpushStr
        exact hpushStr ▸ .str text
      · obtain rfl := hplain hpushInt hpushStr
        exact .plain hpushInt hpushStr
  · intro h
    cases h with
    | int value => exact ⟨fun _ => ⟨value, rfl⟩, nofun, fun h => absurd rfl h⟩
    | str text => exact ⟨nofun, fun _ => ⟨text, rfl⟩, fun _ h => absurd rfl h⟩
    | plain hint hstr => exact ⟨fun h => absurd h hint, fun h => absurd h hstr, fun _ _ => rfl⟩

/-- There is one rule on literals. -/
theorem immediateFault?_eq_some_iff :
    op.immediateFault? = some fault ↔ ¬ op.opcode.Carries op.immediate ∧ fault = .badImmediate := by
  rw [← immediateFault?_eq_none_iff_carries]
  unfold immediateFault?
  split <;> simp [eq_comm]

/-- **The faults of an operation are the rules that it breaks.** -/
theorem mem_faults_iff : fault ∈ op.faults size ↔ op.Breaks size fault := by
  rw [faults, List.mem_append, Option.mem_toList, Option.mem_toList, jumpFault?_eq_some_iff,
    immediateFault?_eq_some_iff]
  constructor
  · rintro (⟨hbreaks, -⟩ | ⟨himmediate, rfl⟩)
    · exact hbreaks
    · exact .badImmediate himmediate
  · intro hbreaks
    by_cases hfault : fault = .badImmediate
    · subst hfault
      cases hbreaks with
      | badImmediate himmediate => exact .inr ⟨himmediate, rfl⟩
    · exact .inl ⟨hbreaks, hfault⟩

end Operation

/-! ## The list of violations -/

/-- The order of the list: by addresses, and a broken jump before a broken literal. -/
def Violation.Before (v w : Violation) : Prop :=
  v.addr < w.addr ∨ v.addr = w.addr ∧ v.fault ≠ .badImmediate ∧ w.fault = .badImmediate

/-- A broken jump is listed before a broken literal, and there are no two of either kind. -/
theorem Operation.pairwise_faults (op : Operation) (size : Nat) :
    (op.faults size).Pairwise fun f g => f ≠ .badImmediate ∧ g = .badImmediate := by
  have hsingle (o : Option Fault) :
      o.toList.Pairwise fun f g => f ≠ .badImmediate ∧ g = .badImmediate := by
    cases o <;> simp
  refine List.pairwise_append.2 ⟨hsingle _, hsingle _, fun f hf g hg => ?_⟩
  rw [Option.mem_toList] at hf hg
  exact ⟨(jumpFault?_eq_some_iff.1 hf).2, (immediateFault?_eq_some_iff.1 hg).2⟩

namespace Program

variable {p : Program}

/-- **The check reports the broken rules and nothing else**, each at the address of an operation
that breaks it. -/
theorem mem_violations_iff {v : Violation} :
    v ∈ p.violations ↔
      ∃ op, p.get? v.addr = some op ∧ op.opcode = v.opcode ∧ op.Breaks p.size v.fault := by
  have hget (op : Operation) (addr : Nat) :
      (op, addr) ∈ p.operations.toList.zipIdx ↔ p.get? addr = some op := by
    rw [List.mem_zipIdx_iff_getElem?, Array.getElem?_toList]
    rfl
  rw [violations, List.mem_flatMap]
  constructor
  · rintro ⟨⟨op, addr⟩, hmem, hv⟩
    obtain ⟨fault, hfault, rfl⟩ := List.mem_map.1 hv
    exact ⟨op, (hget op addr).1 hmem, rfl, Operation.mem_faults_iff.1 hfault⟩
  · rintro ⟨op, hop, hopcode, hbreaks⟩
    refine ⟨(op, v.addr), (hget op v.addr).2 hop, List.mem_map.2 ⟨v.fault, ?_, ?_⟩⟩
    · exact Operation.mem_faults_iff.2 hbreaks
    · rw [hopcode]

/-- **The check reports in order.** -/
theorem pairwise_violations (p : Program) : p.violations.Pairwise Violation.Before := by
  refine List.pairwise_flatMap.2 ⟨fun ⟨op, addr⟩ _ => ?_, ?_⟩
  · rw [List.pairwise_map]
    exact (op.pairwise_faults p.size).imp fun h => .inr ⟨rfl, h⟩
  · have haddr : p.operations.toList.zipIdx.Pairwise fun a b => a.2 < b.2 := by
      rw [← List.pairwise_map, List.zipIdx_map_snd]
      exact List.pairwise_lt_range'
    refine haddr.imp fun hlt v hv w hw => ?_
    obtain ⟨f, -, rfl⟩ := List.mem_map.1 hv
    obtain ⟨g, -, rfl⟩ := List.mem_map.1 hw
    exact .inl hlt

/-- A loop head that jumps and carries a literal, in front of an `end` that jumps too far. -/
example :
    (⟨#[⟨.whileLoop, some (.int 1), some 0, ⟨"a", 0⟩⟩, ⟨.endBlock, none, some 3, ⟨"a", 1⟩⟩]⟩ :
      Program).violations =
    [⟨0, .whileLoop, .unexpectedJump⟩, ⟨0, .whileLoop, .badImmediate⟩,
      ⟨1, .endBlock, .jumpOutOfRange 3 2⟩] := by
  decide

end Program

end StackLang
