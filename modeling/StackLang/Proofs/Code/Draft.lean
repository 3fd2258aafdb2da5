import StackLang.Proofs.Assembly
import StackLang.Proofs.Code

/-!
# Code with open blocks

While a program is assembled, its opcodes spell nested code except that some blocks are still
open. A `Draft` is such code: a stack of `Frame`s, each a block that waits for its next control
word, with the code in front of the block and the parts of the block that are complete; and the
code after the innermost opening word.

`Push` says how a draft grows by one opcode. It agrees with `Assembly.place`:

**Theorem (`Represents.place`, `Represents.exists_push`).** Let an assembly represent a draft:
the jumps that the draft dictates are set in its operations, and its open blocks are the frames.
Then an operation can be placed exactly if the draft grows by its opcode, and the new assembly
represents the new draft.

The invariant has to say which jumps are set already. In the frame of an `if` with an `else` the
`if` jumps, in that of a loop with a `do` nothing does: the `while` never jumps, and where the
`do` jumps is known at the `end` only.
-/

namespace StackLang

/-- An open block, with the code in front of it. -/
inductive Frame
  /-- `before if` -/
  | ifBlock (before : Code)
  /-- `before if yes else` -/
  | elseBlock (before yes : Code)
  /-- `before while` -/
  | whileLoop (before : Code)
  /-- `before while condition do` -/
  | doLoop (before condition : Code)

namespace Frame

/-- The word that waits. -/
def word : Frame → Opcode
  | ifBlock _ => .ifBlock
  | elseBlock _ _ => .elseBlock
  | whileLoop _ => .whileLoop
  | doLoop _ _ => .doLoop

/-- The opcodes in front of the word that waits. -/
def opcodes : Frame → List Opcode
  | ifBlock before | whileLoop before => before.opcodes
  | elseBlock before yes => before.opcodes ++ .ifBlock :: yes.opcodes
  | doLoop before condition => before.opcodes ++ .whileLoop :: condition.opcodes

/-- Their number. -/
def offset : Frame → Nat
  | ifBlock before | whileLoop before => before.size
  | elseBlock before part | doLoop before part => before.size + 1 + part.size

/-- Their jumps, when the first of them is at `base`. -/
def jumps (base : Nat) : Frame → List (Option Nat)
  | ifBlock before | whileLoop before => before.jumps base
  | elseBlock before yes =>
    let opening := base + before.size
    before.jumps base ++ some (opening + 1 + yes.size + 1) :: yes.jumps (opening + 1)
  | doLoop before condition =>
    before.jumps base ++ none :: condition.jumps (base + before.size + 1)

/-- The word that waits, as an assembly records it. -/
def opener (base : Nat) : Frame → Opener
  | ifBlock _ => .ifBlock
  | elseBlock _ _ => .elseBlock
  | whileLoop _ => .whileLoop
  | doLoop before _ => .doLoop (base + before.size)

theorem length_opcodes (f : Frame) : f.opcodes.length = f.offset := by
  cases f <;> simp [opcodes, offset] <;> omega

theorem length_jumps (f : Frame) (base : Nat) : (f.jumps base).length = f.offset := by
  cases f <;> simp [jumps, offset] <;> omega

/-! ## Stacks of frames, innermost first -/

/-- The number of opcodes in a stack. -/
def span : List Frame → Nat
  | [] => 0
  | f :: outer => span outer + f.offset + 1

/-- The opcodes of a stack. -/
def spelled : List Frame → List Opcode
  | [] => []
  | f :: outer => spelled outer ++ f.opcodes ++ [f.word]

/-- The jumps of a stack whose first opcode is at the address zero. The words that wait have none
yet. -/
def linked : List Frame → List (Option Nat)
  | [] => []
  | f :: outer => linked outer ++ f.jumps (span outer) ++ [none]

theorem length_spelled (frames : List Frame) : (spelled frames).length = span frames := by
  induction frames with
  | nil => rfl
  | cons f outer ih =>
    rw [spelled, List.length_append, List.length_append, ih, length_opcodes, List.length_singleton,
      span]

theorem length_linked (frames : List Frame) : (linked frames).length = span frames := by
  induction frames with
  | nil => rfl
  | cons f outer ih =>
    rw [linked, List.length_append, List.length_append, ih, length_jumps, List.length_singleton,
      span]

end Frame

/-- Code with open blocks. -/
structure Draft where
  /-- the open blocks, innermost first -/
  frames : List Frame
  /-- the code after the innermost opening word -/
  here : Code

namespace Draft

/-- The opcodes of a draft. -/
def opcodes (d : Draft) : List Opcode :=
  Frame.spelled d.frames ++ d.here.opcodes

/-- The jumps of a draft that are known so far. -/
def jumps (d : Draft) : List (Option Nat) :=
  Frame.linked d.frames ++ d.here.jumps (Frame.span d.frames)

theorem length_opcodes (d : Draft) : d.opcodes.length = Frame.span d.frames + d.here.size := by
  rw [opcodes, List.length_append, Frame.length_spelled, Code.length_opcodes]

theorem length_jumps (d : Draft) : d.jumps.length = Frame.span d.frames + d.here.size := by
  rw [jumps, List.length_append, Frame.length_linked, Code.length_jumps]

/-- A draft grows by one opcode. -/
inductive Push : Draft → Opcode → Draft → Prop
  | plain (frames : List Frame) (here : Code) {o : Opcode} (hc : o.isControl = false)
      (hm : o ≠ .macroWord) : Push ⟨frames, here⟩ o ⟨frames, here ++ .plain ⟨o, hc, hm⟩ .empty⟩
  | openIf (frames : List Frame) (here : Code) :
      Push ⟨frames, here⟩ .ifBlock ⟨.ifBlock here :: frames, .empty⟩
  | openElse (outer : List Frame) (before here : Code) :
      Push ⟨.ifBlock before :: outer, here⟩ .elseBlock ⟨.elseBlock before here :: outer, .empty⟩
  | openWhile (frames : List Frame) (here : Code) :
      Push ⟨frames, here⟩ .whileLoop ⟨.whileLoop here :: frames, .empty⟩
  | openDo (outer : List Frame) (before here : Code) :
      Push ⟨.whileLoop before :: outer, here⟩ .doLoop ⟨.doLoop before here :: outer, .empty⟩
  | closeIf (outer : List Frame) (before here : Code) :
      Push ⟨.ifBlock before :: outer, here⟩ .endBlock ⟨outer, before ++ .branch here .empty⟩
  | closeElse (outer : List Frame) (before yes here : Code) :
      Push ⟨.elseBlock before yes :: outer, here⟩ .endBlock
        ⟨outer, before ++ .choice yes here .empty⟩
  | closeLoop (outer : List Frame) (before condition here : Code) :
      Push ⟨.doLoop before condition :: outer, here⟩ .endBlock
        ⟨outer, before ++ .loop condition here .empty⟩

/-- A draft grows by a list of opcodes. -/
inductive Pushes : Draft → List Opcode → Draft → Prop
  | nil (d : Draft) : Pushes d [] d
  | cons {d d' d'' : Draft} {o : Opcode} {os : List Opcode} :
      Push d o d' → Pushes d' os d'' → Pushes d (o :: os) d''

theorem Push.opcodes_eq {d d' : Draft} {o : Opcode} (h : Push d o d') :
    d'.opcodes = d.opcodes ++ [o] := by
  cases h <;> simp [opcodes, Frame.spelled, Frame.opcodes, Frame.word, Code.opcodes]

theorem Push.unique {d d' d'' : Draft} {o : Opcode} (h : Push d o d') (h' : Push d o d'') :
    d' = d'' := by
  cases h with
  | plain frames here hc hm =>
    cases h' with
    | plain => rfl
    | _ => cases hc
  | _ =>
    cases h' with
    | plain _ _ hc => cases hc
    | _ => rfl

theorem Pushes.unique {d d' d'' : Draft} {os : List Opcode} (h : Pushes d os d')
    (h' : Pushes d os d'') : d' = d'' := by
  induction h with
  | nil => cases h'; rfl
  | cons hpush _ ih =>
    cases h' with
    | cons hpush' hrest' =>
      obtain rfl := hpush.unique hpush'
      exact ih hrest'

theorem Pushes.append {d d' d'' : Draft} {os os' : List Opcode} (h : Pushes d os d')
    (h' : Pushes d' os' d'') : Pushes d (os ++ os') d'' := by
  induction h with
  | nil => exact h'
  | cons hpush _ ih => exact .cons hpush (ih h')

/-- **Nested code can be read anywhere**: its opcodes leave the frames as they are and add the code
to what is there. -/
theorem pushes_opcodes (c : Code) (frames : List Frame) (here : Code) :
    Pushes ⟨frames, here⟩ c.opcodes ⟨frames, here ++ c⟩ := by
  induction c generalizing frames here with
  | empty => rw [Code.append_empty]; exact .nil _
  | plain o rest ih =>
    have hrest := ih frames (here ++ .plain o .empty)
    rw [Code.append_assoc] at hrest
    exact .cons (.plain frames here o.notControl o.notMacro) hrest
  | branch body rest ihb ihr =>
    have hrest := ihr frames (here ++ .branch body .empty)
    rw [Code.append_assoc] at hrest
    exact .cons (.openIf ..) ((ihb _ .empty).append (.cons (.closeIf ..) hrest))
  | choice yes no rest ihy ihn ihr =>
    have hrest := ihr frames (here ++ .choice yes no .empty)
    rw [Code.append_assoc] at hrest
    exact .cons (.openIf ..) ((ihy _ .empty).append (.cons (.openElse ..)
      ((ihn _ .empty).append (.cons (.closeElse ..) hrest))))
  | loop condition body rest ihc ihb ihr =>
    have hrest := ihr frames (here ++ .loop condition body .empty)
    rw [Code.append_assoc] at hrest
    exact .cons (.openWhile ..) ((ihc _ .empty).append (.cons (.openDo ..)
      ((ihb _ .empty).append (.cons (.closeLoop ..) hrest))))

end Draft

/-- **Nested code has one derivation**: a list of opcodes is spelled by at most one. -/
theorem Code.opcodes_injective : Function.Injective Code.opcodes := by
  intro c d h
  have hc := Draft.pushes_opcodes c [] .empty
  have hd := Draft.pushes_opcodes d [] .empty
  rw [h] at hc
  exact congrArg Draft.here (hc.unique hd)

/-! ## Operations with jumps -/

/-- Give every operation the jump at its position. -/
def link (ops : List Operation) (jumps : List (Option Nat)) : List Operation :=
  ops.zipWith (fun op jump => { op with jump }) jumps

theorem link_append {ops ops' : List Operation} {jumps jumps' : List (Option Nat)}
    (h : ops.length = jumps.length) :
    link (ops ++ ops') (jumps ++ jumps') = link ops jumps ++ link ops' jumps' :=
  List.zipWith_append h

theorem length_link {ops : List Operation} {jumps : List (Option Nat)}
    (h : ops.length = jumps.length) : (link ops jumps).length = ops.length := by
  rw [link, List.length_zipWith, h, Nat.min_self]

/-- Setting one jump. -/
theorem modify_link (ops : List Operation) (before after : List (Option Nat))
    (jump jump' : Option Nat) :
    (link ops (before ++ jump :: after)).modify before.length
        (fun op => { op with jump := jump' }) =
      link ops (before ++ jump' :: after) := by
  induction before generalizing ops with
  | nil =>
    cases ops with
    | nil => rfl
    | cons op ops => simp [link]
  | cons j before ih =>
    cases ops with
    | nil => rfl
    | cons op ops =>
      have := ih ops
      simp_all [link]

/-! ## What an assembly represents -/

/-- The open blocks of an assembly with the operations `ops` are these frames. -/
def Tracks (ops : List Operation) : List Frame → List OpenBlock → Prop
  | [], [] => True
  | f :: outer, b :: blocks =>
    (b.opener = f.opener (Frame.span outer) ∧ b.addr = Frame.span outer + f.offset ∧
      ops[b.addr]?.map (·.location) = some b.location) ∧ Tracks ops outer blocks
  | _, _ => False

/-- The operations `ops` have been placed, the draft `d` is what they spell, and its jumps are
set. -/
structure Represents (a : Assembly) (d : Draft) (ops : List Operation) : Prop where
  opcodes : ops.map (·.opcode) = d.opcodes
  program : a.program.operations.toList = link ops d.jumps
  blocks : Tracks ops d.frames a.blocks

theorem Tracks.append {ops : List Operation} {frames : List Frame} {blocks : List OpenBlock}
    (h : Tracks ops frames blocks) (ops' : List Operation) :
    Tracks (ops ++ ops') frames blocks := by
  induction frames generalizing blocks with
  | nil =>
    cases blocks with
    | nil => trivial
    | cons => exact h.elim
  | cons f outer ih =>
    cases blocks with
    | nil => exact h.elim
    | cons b blocks =>
      obtain ⟨⟨hopener, haddr, hlocation⟩, hrest⟩ := h
      refine ⟨⟨hopener, haddr, ?_⟩, ih hrest⟩
      obtain ⟨op, hop, hloc⟩ := Option.map_eq_some_iff.1 hlocation
      obtain ⟨hlt, -⟩ := List.getElem?_eq_some_iff.1 hop
      rw [List.getElem?_append_left hlt, hop, Option.map_some, hloc]

theorem Tracks.exists_cons {ops : List Operation} {f : Frame} {outer : List Frame}
    {blocks : List OpenBlock} (h : Tracks ops (f :: outer) blocks) :
    ∃ location rest, blocks =
        ⟨f.opener (Frame.span outer), Frame.span outer + f.offset, location⟩ :: rest ∧
      Tracks ops outer rest := by
  cases blocks with
  | nil => exact h.elim
  | cons b blocks =>
    obtain ⟨opener, addr, location⟩ := b
    obtain ⟨⟨rfl, rfl, -⟩, hrest⟩ := h
    exact ⟨location, blocks, rfl, hrest⟩

theorem Tracks.exists_frame {ops : List Operation} {frames : List Frame} {b : OpenBlock}
    {blocks : List OpenBlock} (h : Tracks ops frames (b :: blocks)) :
    ∃ f outer, frames = f :: outer ∧ b.opener = f.opener (Frame.span outer) := by
  cases frames with
  | nil => exact h.elim
  | cons f outer => exact ⟨f, outer, rfl, h.1.1⟩

namespace Represents

variable {a : Assembly} {d : Draft} {ops : List Operation}

theorem empty : Represents .empty ⟨[], .empty⟩ [] :=
  ⟨rfl, rfl, trivial⟩

theorem length_eq (h : Represents a d ops) :
    ops.length = Frame.span d.frames + d.here.size := by
  rw [← d.length_opcodes, ← h.opcodes, List.length_map]

theorem length_jumps (h : Represents a d ops) : ops.length = d.jumps.length :=
  h.length_eq.trans d.length_jumps.symm

theorem size_eq (h : Represents a d ops) :
    a.program.size = Frame.span d.frames + d.here.size := by
  rw [Program.size, ← Array.length_toList, h.program, length_link h.length_jumps, h.length_eq]

/-- Appending an operation with a jump of its own. -/
theorem push_program (h : Represents a d ops) (op : Operation) (jump : Option Nat) :
    (a.program.push { op with jump }).operations.toList =
      link (ops ++ [op]) (d.jumps ++ [jump]) := by
  rw [link_append h.length_jumps, Program.push, Array.toList_push, h.program]
  rfl

/-- Setting the jump of the innermost word that waits, and appending an operation with a jump of
its own. -/
theorem patch_program {f : Frame} {outer : List Frame} {here : Code}
    (h : Represents a ⟨f :: outer, here⟩ ops) (op : Operation) (target jump : Option Nat) :
    ((a.program.setJump (Frame.span outer + f.offset) target).push
        { op with jump }).operations.toList =
      link (ops ++ [op]) (Frame.linked outer ++ f.jumps (Frame.span outer) ++
        target :: here.jumps (Frame.span outer + f.offset + 1) ++ [jump]) := by
  have hlength := h.length_jumps
  have haddr : Frame.span outer + f.offset =
      (Frame.linked outer ++ f.jumps (Frame.span outer)).length := by
    rw [List.length_append, Frame.length_linked, Frame.length_jumps]
  have hprogram := h.program
  simp only [Draft.jumps, Frame.linked, Frame.span, List.append_assoc, List.singleton_append]
    at hprogram hlength
  rw [← List.append_assoc] at hprogram
  rw [link_append (by simpa using hlength), Program.push, Array.toList_push, Program.setJump,
    Array.toList_modify, hprogram, haddr, modify_link]
  rfl

theorem location_last (h : Represents a d ops) (op : Operation) :
    (ops ++ [op])[a.program.size]?.map (·.location) = some op.location := by
  rw [h.size_eq, ← h.length_eq, List.getElem?_append_right (Nat.le_refl _), Nat.sub_self]
  rfl

/-- **An operation is placed if the draft grows by its opcode.** -/
theorem place (h : Represents a d ops) {op : Operation} (hjump : op.jump = none) {d' : Draft}
    (hpush : Draft.Push d op.opcode d') :
    ∃ a', a.place op = .ok a' ∧ Represents a' d' (ops ++ [op]) := by
  have hopcodes : (ops ++ [op]).map (·.opcode) = d'.opcodes := by
    rw [List.map_append, h.opcodes, hpush.opcodes_eq]
    rfl
  have hlocation := h.location_last op
  have hsize := h.size_eq
  have hself : ({ op with jump := none } : Operation) = op := Operation.unlink_of_jump hjump
  have hplain := h.push_program op none
  rw [hself] at hplain
  obtain ⟨program, blocks⟩ := a
  dsimp only at hlocation hsize hplain
  generalize hop : op.opcode = o at hpush
  cases hpush with
  | plain frames here hc hm =>
    subst hop
    refine ⟨_, Assembly.place_eq_ok_iff.2 (.plain program blocks hc), hopcodes, ?_,
      h.blocks.append _⟩
    simp only [hplain, Draft.jumps, Code.jumps_append _ _ rfl, Code.jumps, List.append_assoc]
  | openIf frames here =>
    refine ⟨_, Assembly.place_eq_ok_iff.2 (.openIf program blocks hop), hopcodes, ?_,
      ⟨⟨rfl, hsize, hlocation⟩, h.blocks.append _⟩⟩
    simp [hplain, Draft.jumps, Frame.linked, Frame.jumps, Code.jumps]
  | openWhile frames here =>
    refine ⟨_, Assembly.place_eq_ok_iff.2 (.openWhile program blocks hop), hopcodes, ?_,
      ⟨⟨rfl, hsize, hlocation⟩, h.blocks.append _⟩⟩
    simp [hplain, Draft.jumps, Frame.linked, Frame.jumps, Code.jumps]
  | openElse outer before here =>
    obtain ⟨location, rest, rfl, hrest⟩ := Tracks.exists_cons h.blocks
    simp only [Frame.span, Frame.offset] at hsize
    have haddr : program.size = Frame.span outer + (Frame.elseBlock before here).offset := by
      simp only [hsize, Frame.offset]
      omega
    have hpatch := h.patch_program op (some (program.size + 1)) none
    rw [hself] at hpatch
    refine ⟨_, Assembly.place_eq_ok_iff.2 (.openElse program rest _ location hop), hopcodes,
      hpatch.trans ?_, ⟨⟨rfl, haddr, hlocation⟩, hrest.append _⟩⟩
    simp [hsize, Draft.jumps, Frame.linked, Frame.jumps, Frame.offset, Code.jumps]
  | openDo outer before here =>
    obtain ⟨location, rest, rfl, hrest⟩ := Tracks.exists_cons h.blocks
    simp only [Frame.span, Frame.offset] at hsize
    have haddr : program.size = Frame.span outer + (Frame.doLoop before here).offset := by
      simp only [hsize, Frame.offset]
      omega
    refine ⟨_, Assembly.place_eq_ok_iff.2 (.openDo program rest _ location hop), hopcodes, ?_,
      ⟨⟨rfl, haddr, hlocation⟩, hrest.append _⟩⟩
    simp [hplain, Draft.jumps, Frame.linked, Frame.jumps, Frame.offset, Frame.span, Code.jumps]
  | closeIf outer before here =>
    obtain ⟨location, rest, rfl, hrest⟩ := Tracks.exists_cons h.blocks
    simp only [Frame.span, Frame.offset] at hsize
    have hpatch := h.patch_program op (some program.size) (some (program.size + 1))
    refine ⟨_, Assembly.place_eq_ok_iff.2 (.closeIf program rest _ location hop), hopcodes,
      hpatch.trans ?_, hrest.append _⟩
    simp [hsize, Draft.jumps, Frame.jumps, Frame.offset, Code.jumps_append _ _ rfl, Code.jumps]
  | closeElse outer before yes here =>
    obtain ⟨location, rest, rfl, hrest⟩ := Tracks.exists_cons h.blocks
    simp only [Frame.span, Frame.offset] at hsize
    have hpatch := h.patch_program op (some program.size) (some (program.size + 1))
    refine ⟨_, Assembly.place_eq_ok_iff.2 (.closeElse program rest _ location hop), hopcodes,
      hpatch.trans ?_, hrest.append _⟩
    simp [hsize, Draft.jumps, Frame.jumps, Frame.offset, Code.jumps_append _ _ rfl, Code.jumps,
      ← Nat.add_assoc]
  | closeLoop outer before condition here =>
    obtain ⟨location, rest, rfl, hrest⟩ := Tracks.exists_cons h.blocks
    simp only [Frame.span, Frame.offset] at hsize
    have hpatch :=
      h.patch_program op (some (program.size + 1)) (some (Frame.span outer + before.size))
    refine ⟨_, Assembly.place_eq_ok_iff.2 (.closeLoop program rest _ _ location hop), hopcodes,
      hpatch.trans ?_, hrest.append _⟩
    simp [hsize, Draft.jumps, Frame.jumps, Frame.offset, Code.jumps_append _ _ rfl, Code.jumps,
      ← Nat.add_assoc]

/-- **If an operation is placed, the draft grows by its opcode.** -/
theorem exists_push (h : Represents a d ops) {op : Operation} {a' : Assembly}
    (hm : op.opcode ≠ .macroWord) (hplace : a.place op = .ok a') :
    ∃ d', Draft.Push d op.opcode d' := by
  obtain ⟨frames, here⟩ := d
  have hblocks := h.blocks
  cases Assembly.place_eq_ok_iff.1 hplace with
  | plain _ _ hc => exact ⟨_, .plain frames here hc hm⟩
  | openIf _ _ hop => exact ⟨_, by rw [hop]; exact .openIf frames here⟩
  | openWhile _ _ hop => exact ⟨_, by rw [hop]; exact .openWhile frames here⟩
  | openElse _ _ _ _ hop =>
    obtain ⟨f, outer, rfl, hf⟩ := hblocks.exists_frame
    cases f with
    | ifBlock before => exact ⟨_, by rw [hop]; exact .openElse outer before here⟩
    | _ => cases hf
  | openDo _ _ _ _ hop =>
    obtain ⟨f, outer, rfl, hf⟩ := hblocks.exists_frame
    cases f with
    | whileLoop before => exact ⟨_, by rw [hop]; exact .openDo outer before here⟩
    | _ => cases hf
  | closeIf _ _ _ _ hop =>
    obtain ⟨f, outer, rfl, hf⟩ := hblocks.exists_frame
    cases f with
    | ifBlock before => exact ⟨_, by rw [hop]; exact .closeIf outer before here⟩
    | _ => cases hf
  | closeElse _ _ _ _ hop =>
    obtain ⟨f, outer, rfl, hf⟩ := hblocks.exists_frame
    cases f with
    | elseBlock before yes => exact ⟨_, by rw [hop]; exact .closeElse outer before yes here⟩
    | _ => cases hf
  | closeLoop _ _ _ _ _ hop =>
    obtain ⟨f, outer, rfl, hf⟩ := hblocks.exists_frame
    cases f with
    | doLoop before condition =>
      exact ⟨_, by rw [hop]; exact .closeLoop outer before condition here⟩
    | _ => cases hf

/-- A draft that grows by the opcodes of a list of operations lets them all be placed. -/
theorem placeAll (h : Represents a d ops) {ops' : List Operation} {d' : Draft}
    (hjump : ∀ op ∈ ops', op.jump = none)
    (hpushes : Draft.Pushes d (ops'.map (·.opcode)) d') :
    ∃ a', a.placeAll ops' = .ok a' ∧ Represents a' d' (ops ++ ops') := by
  induction ops' generalizing a d ops with
  | nil => cases hpushes; exact ⟨a, rfl, by rwa [List.append_nil]⟩
  | cons op ops' ih =>
    cases hpushes with
    | cons hpush hrest =>
      obtain ⟨a₁, hplace, h₁⟩ := h.place (hjump op List.mem_cons_self) hpush
      obtain ⟨a₂, hplaces, h₂⟩ := ih h₁ (fun x hx => hjump x (List.mem_cons_of_mem op hx)) hrest
      rw [List.append_assoc] at h₂
      exact ⟨a₂, (Assembly.placeAll_cons hplace ops').trans hplaces, h₂⟩

/-- Operations that have all been placed made the draft grow. -/
theorem exists_pushes (h : Represents a d ops) {ops' : List Operation} {a' : Assembly}
    (hops : ∀ op ∈ ops', op.jump = none ∧ op.opcode ≠ .macroWord)
    (hplaces : a.placeAll ops' = .ok a') :
    ∃ d', Draft.Pushes d (ops'.map (·.opcode)) d' ∧ Represents a' d' (ops ++ ops') := by
  induction ops' generalizing a d ops with
  | nil => cases hplaces; exact ⟨d, .nil d, by rwa [List.append_nil]⟩
  | cons op ops' ih =>
    obtain ⟨hjump, hm⟩ := hops op List.mem_cons_self
    rw [Assembly.placeAll] at hplaces
    split at hplaces
    · cases hplaces
    · next a₁ hplace =>
      obtain ⟨d₁, hpush⟩ := h.exists_push hm hplace
      obtain ⟨a₂, hplace₂, h₁⟩ := h.place hjump hpush
      cases hplace.symm.trans hplace₂
      obtain ⟨d₂, hpushes, h₂⟩ := ih h₁ (fun x hx => hops x (List.mem_cons_of_mem op hx)) hplaces
      rw [List.append_assoc] at h₂
      exact ⟨d₂, .cons hpush hpushes, h₂⟩

/-- Without open blocks an assembly is a finished program, and its jumps are those of the code. -/
theorem finish_eq (h : Represents a d ops) (hframes : d.frames = []) :
    a.finish = .ok ⟨(link ops (d.here.jumps 0)).toArray⟩ := by
  obtain ⟨frames, here⟩ := d
  obtain ⟨⟨operations⟩, blocks⟩ := a
  obtain rfl : frames = [] := hframes
  have hblocks := h.blocks
  cases blocks with
  | nil =>
    have hprogram : operations.toList = link ops (here.jumps 0) := h.program
    rw [← hprogram]
    rfl
  | cons => exact hblocks.elim

theorem frames_eq_nil (h : Represents a d ops) {p : Program} (hfinish : a.finish = .ok p) :
    d.frames = [] := by
  obtain ⟨frames, here⟩ := d
  obtain ⟨program, blocks⟩ := a
  have hblocks := h.blocks
  cases frames with
  | nil => rfl
  | cons f outer =>
    obtain ⟨location, rest, rfl, -⟩ := hblocks.exists_cons
    cases hfinish

end Represents

end StackLang
