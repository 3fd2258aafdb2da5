import StackLang.Assembly
import StackLang.Proofs.Code

/-!
# Placing operations

`Places` says what `place` can do: eight cases, each with the open blocks it needs, the jump it
sets and the block it leaves open. `place_eq_ok_iff` makes it the one place where the definition
of `place` is opened.

What `place` refuses is decided by the openers of the open blocks alone: `Misfit` lists the four
reasons, with the errors that are reported (`place_eq_error_iff`).

`placeAll` places a list of operations, up to the first error. A list can be placed in two parts.

Two things do not depend on what else has been placed. The operations are kept as they came, but
for their jumps (`placeAll_unlinked`). And whether an operation can be placed is decided by the
openers of the open blocks (`Places.transfer`), which only control words change.
-/

namespace StackLang

/-! ## Operations without their jumps -/

/-- The operation without its jump. -/
def Operation.unlink (op : Operation) : Operation :=
  { op with jump := none }

/-- The operations of a program without their jumps, in address order. -/
def Program.unlinked (p : Program) : List Operation :=
  p.operations.toList.map (·.unlink)

theorem Operation.unlink_of_jump {op : Operation} (h : op.jump = none) : op.unlink = op := by
  rw [unlink, ← h]

theorem Program.ext_get? {p q : Program} (h : ∀ i, p.get? i = q.get? i) : p = q :=
  congrArg Program.mk (Array.ext_getElem? h)

theorem Program.length_unlinked (p : Program) : p.unlinked.length = p.size := by
  simp [unlinked, size]

theorem Program.getElem?_unlinked (p : Program) (i : Nat) :
    p.unlinked[i]? = (p.get? i).map (·.unlink) := by
  simp [unlinked, get?]

@[simp] theorem Program.unlinked_push (p : Program) (op : Operation) :
    (p.push op).unlinked = p.unlinked ++ [op.unlink] := by
  simp [unlinked, push]

@[simp] theorem Program.unlinked_setJump (p : Program) (addr : Nat) (jump : Option Nat) :
    (p.setJump addr jump).unlinked = p.unlinked := by
  apply List.ext_getElem?
  intro i
  simp only [unlinked, setJump, Array.toList_modify, List.getElem?_map, List.getElem?_modify]
  by_cases h : addr = i
  · simp only [if_pos h]
    cases p.operations.toList[i]? <;> rfl
  · simp only [if_neg h]
    cases p.operations.toList[i]? <;> rfl

namespace Assembly

/-! ## What placing does -/

/-- Placing an operation turns one assembly into another. -/
inductive Places : Assembly → Operation → Assembly → Prop
  | plain {op : Operation} (program : Program) (blocks : List OpenBlock)
      (h : op.opcode.isControl = false) : Places ⟨program, blocks⟩ op ⟨program.push op, blocks⟩
  | openIf {op : Operation} (program : Program) (blocks : List OpenBlock)
      (h : op.opcode = .ifBlock) :
      Places ⟨program, blocks⟩ op
        ⟨program.push op, ⟨.ifBlock, program.size, op.location⟩ :: blocks⟩
  | openElse {op : Operation} (program : Program) (outer : List OpenBlock) (addr : Nat)
      (location : Location) (h : op.opcode = .elseBlock) :
      Places ⟨program, ⟨.ifBlock, addr, location⟩ :: outer⟩ op
        ⟨(program.setJump addr (some (program.size + 1))).push op,
          ⟨.elseBlock, program.size, op.location⟩ :: outer⟩
  | openWhile {op : Operation} (program : Program) (blocks : List OpenBlock)
      (h : op.opcode = .whileLoop) :
      Places ⟨program, blocks⟩ op
        ⟨program.push op, ⟨.whileLoop, program.size, op.location⟩ :: blocks⟩
  | openDo {op : Operation} (program : Program) (outer : List OpenBlock) (addr : Nat)
      (location : Location) (h : op.opcode = .doLoop) :
      Places ⟨program, ⟨.whileLoop, addr, location⟩ :: outer⟩ op
        ⟨program.push op, ⟨.doLoop addr, program.size, op.location⟩ :: outer⟩
  | closeIf {op : Operation} (program : Program) (outer : List OpenBlock) (addr : Nat)
      (location : Location) (h : op.opcode = .endBlock) :
      Places ⟨program, ⟨.ifBlock, addr, location⟩ :: outer⟩ op
        ⟨(program.setJump addr (some program.size)).push
          { op with jump := some (program.size + 1) }, outer⟩
  | closeElse {op : Operation} (program : Program) (outer : List OpenBlock) (addr : Nat)
      (location : Location) (h : op.opcode = .endBlock) :
      Places ⟨program, ⟨.elseBlock, addr, location⟩ :: outer⟩ op
        ⟨(program.setJump addr (some program.size)).push
          { op with jump := some (program.size + 1) }, outer⟩
  | closeLoop {op : Operation} (program : Program) (outer : List OpenBlock) (start addr : Nat)
      (location : Location) (h : op.opcode = .endBlock) :
      Places ⟨program, ⟨.doLoop start, addr, location⟩ :: outer⟩ op
        ⟨(program.setJump addr (some (program.size + 1))).push { op with jump := some start },
          outer⟩

theorem place_eq_ok_iff {a a' : Assembly} {op : Operation} :
    a.place op = .ok a' ↔ Places a op a' := by
  constructor
  · obtain ⟨program, blocks⟩ := a
    obtain ⟨opcode, immediate, jump, location⟩ := op
    intro h
    unfold place at h
    cases opcode
    case ifBlock => cases h; exact .openIf program blocks rfl
    case whileLoop => cases h; exact .openWhile program blocks rfl
    case elseBlock =>
      dsimp only at h
      split at h
      · cases h
      · cases h; exact .openElse program _ _ _ rfl
      · cases h
    case doLoop =>
      dsimp only at h
      split at h
      · cases h
      · cases h; exact .openDo program _ _ _ rfl
      · cases h
    case endBlock =>
      dsimp only at h
      split at h
      · cases h
      · cases h; exact .closeIf program _ _ _ rfl
      · cases h; exact .closeElse program _ _ _ rfl
      · cases h; exact .closeLoop program _ _ _ _ rfl
      · cases h
    all_goals cases h; exact .plain program blocks rfl
  · intro h
    cases h with
    | plain program blocks h =>
      unfold place
      cases hop : op.opcode with
      | ifBlock | elseBlock | endBlock | whileLoop | doLoop => rw [hop] at h; cases h
      | _ => simp only [hop]
    | _ => simp only [place, *]

/-- The words that opened the blocks that are still open, innermost first. -/
def openers (a : Assembly) : List Opcode :=
  a.blocks.map (·.opener.opcode)

/-- An operation that does not fit the blocks that these words have opened, and the error. -/
inductive Misfit (op : Operation) : List Opcode → CompileError → Prop
  | noBlock (h : op.opcode = .elseBlock ∨ op.opcode = .doLoop ∨ op.opcode = .endBlock) :
      Misfit op [] (.noOpenBlock op.location op.opcode)
  | elseWithoutIf {word : Opcode} {outer : List Opcode} (h : op.opcode = .elseBlock)
      (hword : word ≠ .ifBlock) : Misfit op (word :: outer) (.elseWithoutIf op.location)
  | doWithoutWhile {word : Opcode} {outer : List Opcode} (h : op.opcode = .doLoop)
      (hword : word ≠ .whileLoop) : Misfit op (word :: outer) (.doWithoutWhile op.location)
  | endOfLoopHead {outer : List Opcode} (h : op.opcode = .endBlock) :
      Misfit op (.whileLoop :: outer) (.endOfLoopHead op.location)

theorem place_eq_error_iff {a : Assembly} {op : Operation} {e : CompileError} :
    a.place op = .error e ↔ Misfit op a.openers e := by
  obtain ⟨program, blocks⟩ := a
  constructor
  · obtain ⟨opcode, immediate, jump, location⟩ := op
    intro h
    unfold place at h
    cases opcode
    case elseBlock =>
      dsimp only at h
      split at h
      · cases h; exact .noBlock (.inl rfl)
      · cases h
      · next block outer hne =>
        cases h
        refine .elseWithoutIf rfl fun hword => ?_
        obtain ⟨opener, addr, location⟩ := block
        cases opener <;> first | exact hne _ _ rfl | cases hword
    case doLoop =>
      dsimp only at h
      split at h
      · cases h; exact .noBlock (.inr (.inl rfl))
      · cases h
      · next block outer hne =>
        cases h
        refine .doWithoutWhile rfl fun hword => ?_
        obtain ⟨opener, addr, location⟩ := block
        cases opener <;> first | exact hne _ _ rfl | cases hword
    case endBlock =>
      dsimp only at h
      split at h
      · cases h; exact .noBlock (.inr (.inr rfl))
      · cases h
      · cases h
      · cases h
      · cases h; exact .endOfLoopHead rfl
    all_goals cases h
  · intro h
    cases blocks with
    | nil =>
      cases h with
      | noBlock h => rcases h with h | h | h <;> simp only [place, h]
    | cons block outer =>
      obtain ⟨opener, addr, location⟩ := block
      generalize hopeners : openers ⟨program, ⟨opener, addr, location⟩ :: outer⟩ = words at h
      cases h with
      | noBlock => cases hopeners
      | elseWithoutIf h hword =>
        obtain ⟨rfl, -⟩ := List.cons.inj hopeners
        cases opener <;> first | exact absurd rfl hword | simp only [place, h]
      | doWithoutWhile h hword =>
        obtain ⟨rfl, -⟩ := List.cons.inj hopeners
        cases opener <;> first | exact absurd rfl hword | simp only [place, h]
      | endOfLoopHead h =>
        obtain ⟨hword, -⟩ := List.cons.inj hopeners
        cases opener <;> first | cases hword; simp only [place, h] | cases hword

/-- An operation is refused at its own place. -/
theorem Misfit.location? {op : Operation} {words : List Opcode} {e : CompileError}
    (h : Misfit op words e) : e.location? = some op.location := by
  cases h <;> rfl

theorem Misfit.opcode_ne_macroWord {op : Operation} {words : List Opcode} {e : CompileError}
    (h : Misfit op words e) : op.opcode ≠ .macroWord := by
  cases h with
  | noBlock h => rcases h with h | h | h <;> rw [h] <;> exact nofun
  | elseWithoutIf h | doWithoutWhile h | endOfLoopHead h => rw [h]; exact nofun

/-- Place operations one after the other, up to the first error. -/
def placeAll (a : Assembly) : List Operation → Except CompileError Assembly
  | [] => .ok a
  | op :: ops =>
    match a.place op with
    | .error e => .error e
    | .ok a' => a'.placeAll ops

variable {a a' : Assembly} {op : Operation} {ops : List Operation}

theorem placeAll_cons (h : a.place op = .ok a') (ops : List Operation) :
    a.placeAll (op :: ops) = a'.placeAll ops := by
  simp only [placeAll, h]

theorem placeAll_append (h : a.placeAll ops = .ok a') (ops' : List Operation) :
    a.placeAll (ops ++ ops') = a'.placeAll ops' := by
  induction ops generalizing a with
  | nil => cases h; rfl
  | cons op ops ih =>
    rw [placeAll] at h
    split at h
    · cases h
    · next a₁ hplace =>
      rw [List.cons_append, placeAll_cons hplace]
      exact ih h

/-- A list that can be placed can be placed up to any point. -/
theorem exists_of_placeAll_append {ops' : List Operation} (h : a.placeAll (ops ++ ops') = .ok a') :
    ∃ a₁, a.placeAll ops = .ok a₁ ∧ a₁.placeAll ops' = .ok a' := by
  induction ops generalizing a with
  | nil => exact ⟨a, rfl, h⟩
  | cons op ops ih =>
    rw [List.cons_append, placeAll] at h
    split at h
    · cases h
    · next a₂ hplace =>
      obtain ⟨a₁, h₁, h₂⟩ := ih h
      exact ⟨a₁, (placeAll_cons hplace ops).trans h₁, h₂⟩

/-- A program under construction holds the operations that were placed, but for the jumps. -/
theorem placeAll_unlinked (h : a.placeAll ops = .ok a') :
    a'.program.unlinked = a.program.unlinked ++ ops.map (·.unlink) := by
  induction ops generalizing a with
  | nil => cases h; simp
  | cons op ops ih =>
    rw [placeAll] at h
    split at h
    · cases h
    · next a₁ hplace =>
      have hfirst : a₁.program.unlinked = a.program.unlinked ++ [op.unlink] := by
        cases place_eq_ok_iff.1 hplace <;> simp <;> rfl
      rw [ih h, hfirst, List.map_cons, List.append_assoc, List.singleton_append]

/-! ## Open blocks -/

theorem finish_eq_ok_iff {p : Program} : a.finish = .ok p ↔ a.blocks = [] ∧ a.program = p := by
  unfold finish
  cases a.blocks <;> simp

/-- Where blocks are open, the innermost one is reported. -/
theorem finish_eq_error_iff {e : CompileError} : a.finish = .error e ↔
    ∃ block outer, a.blocks = block :: outer ∧
      e = .neverClosed block.location block.opener.opcode := by
  unfold finish
  cases a.blocks with
  | nil => simp
  | cons block outer => simp [eq_comm]

/-- A word that is no control word can always be placed, and it leaves the open blocks alone. -/
theorem exists_place_of_plain (a : Assembly) (hop : op.opcode.isControl = false) :
    ∃ a', a.place op = .ok a' ∧ a'.openers = a.openers :=
  ⟨_, place_eq_ok_iff.2 (.plain a.program a.blocks hop), rfl⟩

theorem exists_block_of_openers {opcode : Opcode} {outer : List Opcode}
    (h : a.openers = opcode :: outer) :
    ∃ block blocks, a = ⟨a.program, block :: blocks⟩ ∧ block.opener.opcode = opcode ∧
      blocks.map (·.opener.opcode) = outer := by
  obtain ⟨program, blocks⟩ := a
  cases blocks with
  | nil => cases h
  | cons block blocks => exact ⟨block, blocks, rfl, (List.cons.inj h).1, (List.cons.inj h).2⟩

/-- **Openers decide**: what can be placed in one assembly can be placed in every other that has
the same blocks open, and both still have the same blocks open after it. -/
theorem Places.transfer {b : Assembly} (h : Places a op a') (hopeners : b.openers = a.openers) :
    ∃ b', b.place op = .ok b' ∧ b'.openers = a'.openers := by
  cases h with
  | plain program blocks hop =>
    obtain ⟨b', hplace, hb'⟩ := exists_place_of_plain b hop
    exact ⟨b', hplace, hb'.trans hopeners⟩
  | openIf program blocks hop =>
    exact ⟨_, place_eq_ok_iff.2 (.openIf b.program b.blocks hop),
      congrArg (Opcode.ifBlock :: ·) hopeners⟩
  | openWhile program blocks hop =>
    exact ⟨_, place_eq_ok_iff.2 (.openWhile b.program b.blocks hop),
      congrArg (Opcode.whileLoop :: ·) hopeners⟩
  | openElse program outer addr location hop =>
    obtain ⟨⟨opener, addr', location'⟩, blocks, hb, hopener, hblocks⟩ :=
      exists_block_of_openers hopeners
    cases opener with
    | ifBlock =>
      rw [hb]
      exact ⟨_, place_eq_ok_iff.2 (.openElse b.program blocks addr' location' hop),
        congrArg (Opcode.elseBlock :: ·) hblocks⟩
    | _ => cases hopener
  | openDo program outer addr location hop =>
    obtain ⟨⟨opener, addr', location'⟩, blocks, hb, hopener, hblocks⟩ :=
      exists_block_of_openers hopeners
    cases opener with
    | whileLoop =>
      rw [hb]
      exact ⟨_, place_eq_ok_iff.2 (.openDo b.program blocks addr' location' hop),
        congrArg (Opcode.doLoop :: ·) hblocks⟩
    | _ => cases hopener
  | closeIf program outer addr location hop =>
    obtain ⟨⟨opener, addr', location'⟩, blocks, hb, hopener, hblocks⟩ :=
      exists_block_of_openers hopeners
    cases opener with
    | ifBlock =>
      rw [hb]
      exact ⟨_, place_eq_ok_iff.2 (.closeIf b.program blocks addr' location' hop), hblocks⟩
    | _ => cases hopener
  | closeElse program outer addr location hop =>
    obtain ⟨⟨opener, addr', location'⟩, blocks, hb, hopener, hblocks⟩ :=
      exists_block_of_openers hopeners
    cases opener with
    | elseBlock =>
      rw [hb]
      exact ⟨_, place_eq_ok_iff.2 (.closeElse b.program blocks addr' location' hop), hblocks⟩
    | _ => cases hopener
  | closeLoop program outer start addr location hop =>
    obtain ⟨⟨opener, addr', location'⟩, blocks, hb, hopener, hblocks⟩ :=
      exists_block_of_openers hopeners
    cases opener with
    | doLoop start' =>
      rw [hb]
      exact ⟨_, place_eq_ok_iff.2 (.closeLoop b.program blocks start' addr' location' hop),
        hblocks⟩
    | _ => cases hopener

/-- Without an `end`, blocks are only opened. So if none is open at the end, none was open before
and no control word has been placed. -/
theorem of_placeAll_without_end (h : a.placeAll ops = .ok a') (hclosed : a'.blocks = [])
    (hend : ∀ op ∈ ops, op.opcode ≠ .endBlock) :
    a.blocks = [] ∧ ∀ op ∈ ops, op.opcode.isControl = false := by
  induction ops generalizing a with
  | nil => cases h; exact ⟨hclosed, nofun⟩
  | cons op ops ih =>
    rw [placeAll] at h
    split at h
    · cases h
    · next a₁ hplace =>
      obtain ⟨hblocks, hcontrol⟩ := ih h (fun x hx => hend x (List.mem_cons_of_mem op hx))
      have hop : a.blocks = [] ∧ op.opcode.isControl = false := by
        cases place_eq_ok_iff.1 hplace with
        | plain program blocks hop => exact ⟨hblocks, hop⟩
        | openIf | openElse | openWhile | openDo => cases hblocks
        | closeIf _ _ _ _ hop | closeElse _ _ _ _ hop | closeLoop _ _ _ _ _ hop =>
          exact absurd hop (hend op List.mem_cons_self)
      refine ⟨hop.1, fun x hx => ?_⟩
      rcases List.mem_cons.1 hx with rfl | hx
      · exact hop.2
      · exact hcontrol x hx

end Assembly

end StackLang
