import StackLang.Proofs.Assembly

/-!
# Open blocks and their words

An assembly keeps its open blocks beside the program. The program knows them too, since each one
has been opened by a word: `Tidy` says that the blocks are at different addresses, the inner
ones behind the outer ones, that the words at these addresses are their openers, and that the
loop of a `do` starts at a `while` in front of it, at which no block is open any more.

**Theorem (`Places.tidy`).** Placing an operation keeps an assembly tidy. A turn closes the
innermost block or leaves it open, and opens one at the end of the program or none
(`Places.blocks`).

So nothing but the addresses has to be kept for the blocks, if the `do` of an open loop
remembers the address of its `while`. `held` is the program in which it does so in its own jump.
It grows just as the program does (`withLoops_push`, `withLoops_setJump`).
-/

namespace StackLang

/-! ## Setting jumps -/

namespace Program

variable (p : Program) (op : Operation) (jump jump' : Option Nat) {addr addr' : Nat}

theorem setJump_push_self :
    (p.push op).setJump p.size jump = p.push { op with jump } := by
  apply ext_get?
  intro i
  rw [get?_setJump, get?_push, get?_push]
  by_cases h : p.size = i
  · simp only [if_pos h, if_pos h.symm, Option.map_some]
  · simp only [if_neg h, if_neg (Ne.symm h)]

theorem setJump_push_of_lt (h : addr < p.size) :
    (p.push op).setJump addr jump = (p.setJump addr jump).push op := by
  apply ext_get?
  intro i
  rw [get?_setJump, get?_push, get?_push, get?_setJump, size_setJump]
  by_cases hi : i = p.size
  · simp only [if_pos hi, if_neg (hi ▸ Nat.ne_of_lt h)]
  · simp only [if_neg hi]

theorem setJump_setJump : (p.setJump addr jump).setJump addr jump' = p.setJump addr jump' := by
  apply ext_get?
  intro i
  simp only [get?_setJump]
  by_cases hi : addr = i
  · simp only [if_pos hi, Option.map_map]
    rfl
  · simp only [if_neg hi]

theorem setJump_comm (h : addr ≠ addr') :
    (p.setJump addr jump).setJump addr' jump' = (p.setJump addr' jump').setJump addr jump := by
  apply ext_get?
  intro i
  simp only [get?_setJump]
  by_cases hi : addr = i
  · have hi' : addr' ≠ i := fun hi' => h (hi.trans hi'.symm)
    simp only [if_pos hi, if_neg hi']
  · simp only [if_neg hi]

end Program

namespace Assembly

/-! ## Tidy assemblies -/

/-- What is kept about the open blocks is what the words of the program say. -/
structure Tidy (a : Assembly) : Prop where
  /-- inner blocks are open at greater addresses -/
  descending : a.blocks.Pairwise (·.addr > ·.addr)
  opened : ∀ b ∈ a.blocks, ∃ op, a.program.unlinked[b.addr]? = some op ∧
    op.opcode = b.opener.opcode ∧ op.location = b.location
  loops : ∀ b ∈ a.blocks, ∀ start, b.opener = .doLoop start →
    start < b.addr ∧ (∀ c ∈ a.blocks, c.addr ≠ start) ∧
      ∃ op, a.program.unlinked[start]? = some op ∧ op.opcode = .whileLoop

theorem tidy_empty : Tidy .empty :=
  ⟨.nil, nofun, nofun⟩

variable {a a' : Assembly} {op : Operation}

theorem Tidy.addr_lt (ha : a.Tidy) {b : OpenBlock} (hb : b ∈ a.blocks) :
    b.addr < a.program.size := by
  obtain ⟨op, hop, -⟩ := ha.opened b hb
  rw [← Program.length_unlinked]
  exact (List.getElem?_eq_some_iff.1 hop).1

theorem Tidy.addr_ne (ha : a.Tidy) {b : OpenBlock} {outer : List OpenBlock}
    (hblocks : a.blocks = b :: outer) : ∀ c ∈ outer, c.addr ≠ b.addr := by
  intro c hc
  have hdescending := ha.descending
  rw [hblocks] at hdescending
  exact Nat.ne_of_lt (List.rel_of_pairwise_cons hdescending hc)

/-- Blocks can be closed, and operations can be appended. -/
theorem Tidy.close (ha : a.Tidy) (hblocks : a'.blocks <:+ a.blocks)
    (hprogram : a.program.unlinked <+: a'.program.unlinked) : a'.Tidy := by
  have hold {i : Nat} {op : Operation} (hop : a.program.unlinked[i]? = some op) :
      a'.program.unlinked[i]? = some op := by
    obtain ⟨rest, hrest⟩ := hprogram
    rw [← hrest, List.getElem?_append_left (List.getElem?_eq_some_iff.1 hop).1, hop]
  constructor
  · exact ha.descending.sublist hblocks.sublist
  · intro b hb
    obtain ⟨op, hop, hword⟩ := ha.opened b (hblocks.subset hb)
    exact ⟨op, hold hop, hword⟩
  · intro b hb start hstart
    obtain ⟨hlt, hclosed, op, hop, hword⟩ := ha.loops b (hblocks.subset hb) start hstart
    exact ⟨hlt, fun c hc => hclosed c (hblocks.subset hc), op, hold hop, hword⟩

/-- A block can be opened behind all others, for a word that is there. The `while` of a new loop has
to be there too, with no block that is still open. -/
theorem Tidy.open (ha : a.Tidy) {b : OpenBlock} (hbehind : ∀ c ∈ a.blocks, c.addr < b.addr)
    (hopened : ∃ op, a.program.unlinked[b.addr]? = some op ∧ op.opcode = b.opener.opcode ∧
      op.location = b.location)
    (hloop : ∀ start, b.opener = .doLoop start → start < b.addr ∧ (∀ c ∈ a.blocks, c.addr ≠ start) ∧
      ∃ op, a.program.unlinked[start]? = some op ∧ op.opcode = .whileLoop) :
    Tidy ⟨a.program, b :: a.blocks⟩ := by
  constructor
  · exact List.pairwise_cons.2 ⟨hbehind, ha.descending⟩
  · exact List.forall_mem_cons.2 ⟨hopened, ha.opened⟩
  · refine List.forall_mem_cons.2 ⟨fun start hstart => ?_, fun c hc start hstart => ?_⟩
    · obtain ⟨hlt, hclosed, hwhile⟩ := hloop start hstart
      exact ⟨hlt, List.forall_mem_cons.2 ⟨Nat.ne_of_gt hlt, hclosed⟩, hwhile⟩
    · obtain ⟨hlt, hclosed, hwhile⟩ := ha.loops c hc start hstart
      have hne : b.addr ≠ start := Nat.ne_of_gt (Nat.lt_trans hlt (hbehind c hc))
      exact ⟨hlt, List.forall_mem_cons.2 ⟨hne, hclosed⟩, hwhile⟩

/-- The operation is appended, and of the open blocks the innermost one is closed or none. Then the
operation may open a block; a `do` opens one for the loop of a `while` that it closes. -/
theorem Places.blocks (h : Places a op a') :
    a'.program.unlinked = a.program.unlinked ++ [op.unlink] ∧
      ∃ outer, outer <:+ a.blocks ∧ (a'.blocks = outer ∨
        ∃ opener, a'.blocks = ⟨opener, a.program.size, op.location⟩ :: outer ∧
          op.opcode = opener.opcode ∧ ∀ start, opener = .doLoop start →
            ∃ location, a.blocks = ⟨.whileLoop, start, location⟩ :: outer) := by
  cases h with
  | plain program blocks =>
    exact ⟨Program.unlinked_push .., blocks, List.suffix_refl _, .inl rfl⟩
  | openIf program blocks h | openWhile program blocks h =>
    exact ⟨Program.unlinked_push .., blocks, List.suffix_refl _, .inr ⟨_, rfl, h, nofun⟩⟩
  | openElse program outer addr location h =>
    exact ⟨by simp, outer, List.suffix_cons .., .inr ⟨_, rfl, h, nofun⟩⟩
  | openDo program outer addr location h =>
    refine ⟨Program.unlinked_push .., outer, List.suffix_cons .., .inr ⟨_, rfl, h, ?_⟩⟩
    intro start hstart
    cases hstart
    exact ⟨location, rfl⟩
  | closeIf program outer | closeElse program outer | closeLoop program outer =>
    exact ⟨by simp [Operation.unlink], outer, List.suffix_cons .., .inl rfl⟩

/-- **Placing an operation keeps an assembly tidy.** -/
theorem Places.tidy (h : Places a op a') (ha : a.Tidy) : a'.Tidy := by
  obtain ⟨hprogram, outer, houter, hblocks⟩ := h.blocks
  have hclosed : Tidy ⟨a'.program, outer⟩ :=
    ha.close houter (hprogram ▸ List.prefix_append _ _)
  obtain ⟨program', blocks'⟩ := a'
  dsimp only at hprogram hblocks hclosed
  rcases hblocks with rfl | ⟨opener, rfl, hword, hstart⟩
  · exact hclosed
  · refine hclosed.open (fun c hc => ha.addr_lt (houter.subset hc)) ⟨op.unlink, ?_, hword, rfl⟩ ?_
    · rw [hprogram, ← Program.length_unlinked, List.getElem?_concat_length]
    · intro start hopener
      obtain ⟨location, hblocks⟩ := hstart start hopener
      have hmem : (⟨.whileLoop, start, location⟩ : OpenBlock) ∈ a.blocks := by simp [hblocks]
      obtain ⟨word, hat, hwhile, -⟩ := ha.opened _ hmem
      refine ⟨ha.addr_lt hmem, ha.addr_ne hblocks, word, ?_, hwhile⟩
      rw [hprogram, List.getElem?_append_left (List.getElem?_eq_some_iff.1 hat).1, hat]

/-! ## Addresses instead of blocks -/

/-- The addresses of the open blocks, innermost first. -/
def addresses (a : Assembly) : List Nat :=
  a.blocks.map (·.addr)

/-- The program where the `do` of every loop among these blocks jumps to its `while`. -/
def withLoops (p : Program) : List OpenBlock → Program
  | [] => p
  | ⟨.doLoop start, addr, _⟩ :: outer => (withLoops p outer).setJump addr (some start)
  | _ :: outer => withLoops p outer

/-- The program where the `do` of every open loop jumps to its `while`. -/
def held (a : Assembly) : Program :=
  withLoops a.program a.blocks

section

variable (p : Program) {blocks : List OpenBlock}

@[simp] theorem size_withLoops (blocks : List OpenBlock) : (withLoops p blocks).size = p.size := by
  fun_induction withLoops p blocks with
  | case1 => rfl
  | case2 start addr location outer ih => rw [Program.size_setJump, ih]
  | case3 block outer hne ih => exact ih

@[simp] theorem unlinked_withLoops (blocks : List OpenBlock) :
    (withLoops p blocks).unlinked = p.unlinked := by
  fun_induction withLoops p blocks with
  | case1 => rfl
  | case2 start addr location outer ih => rw [Program.unlinked_setJump, ih]
  | case3 block outer hne ih => exact ih

theorem withLoops_push (op : Operation) (h : ∀ b ∈ blocks, b.addr < p.size) :
    withLoops (p.push op) blocks = (withLoops p blocks).push op := by
  fun_induction withLoops p blocks with
  | case1 => rfl
  | case2 start addr location outer ih =>
    obtain ⟨haddr, houter⟩ := List.forall_mem_cons.1 h
    rw [withLoops, ih houter, Program.setJump_push_of_lt _ _ _ (by rwa [size_withLoops])]
  | case3 block outer hne ih =>
    rw [withLoops.eq_3 _ _ _ hne]
    exact ih (List.forall_mem_cons.1 h).2

theorem withLoops_setJump {addr : Nat} (jump : Option Nat) (h : ∀ b ∈ blocks, b.addr ≠ addr) :
    withLoops (p.setJump addr jump) blocks = (withLoops p blocks).setJump addr jump := by
  fun_induction withLoops p blocks with
  | case1 => rfl
  | case2 start addr' location outer ih =>
    obtain ⟨haddr, houter⟩ := List.forall_mem_cons.1 h
    rw [withLoops, ih houter, Program.setJump_comm _ _ _ (Ne.symm haddr)]
  | case3 block outer hne ih =>
    rw [withLoops.eq_3 _ _ _ hne]
    exact ih (List.forall_mem_cons.1 h).2

/-- The `do` of an open loop jumps to its `while`. -/
theorem jump_withLoops {b : OpenBlock} {start : Nat} {op : Operation} (hb : b ∈ blocks)
    (hstart : b.opener = .doLoop start) (h : blocks.Pairwise (·.addr > ·.addr))
    (hop : (withLoops p blocks).get? b.addr = some op) : op.jump = some start := by
  fun_induction withLoops p blocks with
  | case1 => cases hb
  | case2 start' addr location outer ih =>
    obtain ⟨hbehind, houter⟩ := List.pairwise_cons.1 h
    rw [Program.get?_setJump] at hop
    rcases List.mem_cons.1 hb with rfl | hb
    · cases hstart
      rw [if_pos rfl] at hop
      obtain ⟨op', -, rfl⟩ := Option.map_eq_some_iff.1 hop
      rfl
    · rw [if_neg (Nat.ne_of_gt (hbehind b hb))] at hop
      exact ih hb houter hop
  | case3 block outer hne ih =>
    rcases List.mem_cons.1 hb with rfl | hb
    · obtain ⟨opener, addr, location⟩ := b
      exact (hne start addr location (hstart ▸ rfl)).elim
    · exact ih hb (List.pairwise_cons.1 h).2 hop

end

/-- The word of an open block is its opener, and if that is the `do` of a loop it jumps to the
`while`. -/
theorem Tidy.exists_held (ha : a.Tidy) {b : OpenBlock} (hb : b ∈ a.blocks) :
    ∃ op, a.held.get? b.addr = some op ∧ op.opcode = b.opener.opcode ∧ op.location = b.location ∧
      ∀ start, b.opener = .doLoop start → op.jump = some start := by
  obtain ⟨word, hword, hopcode, hlocation⟩ := ha.opened b hb
  rw [← unlinked_withLoops a.program a.blocks, Program.getElem?_unlinked] at hword
  obtain ⟨op, hop, rfl⟩ := Option.map_eq_some_iff.1 hword
  refine ⟨op, hop, hopcode, hlocation, fun start hstart => ?_⟩
  exact jump_withLoops a.program hb hstart ha.descending hop

end Assembly

end StackLang
