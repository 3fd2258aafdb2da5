import StackLang.Proofs.Buffer.Agreement
import StackLang.Proofs.Lowering.Division

/-!
# Every access is in range

The numbers in the storage of a lowering are consistent in every turn (`Valid`). None of this is
checked by the turns themselves: what a lowering keeps by the way its data is built, trails of
distinct macros and blocks with their openers, a buffer has to keep by the order in which its
numbers are given out.

**Theorem (`after_valid`).** After any number of turns the storage is valid, and holds the
lowering after as many steps. It comes to its end, and the end is the result of the lowering: no
access is ever out of range, and no error is internal.
-/

namespace StackLang

open Lowering

/-! ## The assembly of a path -/

theorem Lowering.Path.tidy {o : Options} {s s' : Lowering} {mvs : List Move}
    (h : Path o s mvs s') (hs : s.assembly.Tidy) : s'.assembly.Tidy := by
  refine h.invariant (I := fun s => s.assembly.Tidy) ?_ hs
  intro s mv s' hs hstep
  cases hstep with
  | emit _ _ _ _ hplace => exact (Assembly.place_eq_ok_iff.1 hplace).tidy hs
  | expand => exact hs
  | define => exact hs

namespace Buffer

/-- The pending tokens are what is left of the source `ts`, without origins, and tokens of bodies
behind them or in front of them. -/
def Divided (o : Options) (ts : List Token) (b : Buffer) : Prop :=
  ∃ left expanded, left <:+ ts ∧
    b.pending = (match o.placement with
      | .tail => left.map (·, none) ++ expanded
      | .inPlace => expanded ++ left.map (·, none)) ∧
    ∀ x ∈ expanded, x.2 ≠ none ∧ x.1.isEnd = false

/-- Every number in the storage is in range and leads to what it stands for. -/
structure Valid (o : Options) (ts : List Token) (b : Buffer) : Prop where
  length_origins : b.origins.length = b.tokens.length
  position_le : b.position ≤ b.tokens.length
  origin_lt : ∀ k, some k ∈ b.origins → k < b.frames.length
  parent_lt : ∀ (k parent : Nat) (name : String), b.frames[k]? = some ⟨name, some parent⟩ →
    parent < k
  /-- the macros on the way back from an expansion are distinct, and all of them are defined -/
  trails : ∀ k < b.frames.length, ∃ trail, trail? b.frames (some k) = some trail ∧
    trail.Nodup ∧ trail ⊆ b.macros.names
  endFree : ∀ e ∈ b.macros.entries, ∀ t ∈ e.2, t.isEnd = false
  noBuiltin : b.macros.NoBuiltin
  divided : b.Divided o ts
  /-- inner blocks are open at greater addresses -/
  descending : b.blocks.Pairwise (· > ·)
  opened : ∀ addr ∈ b.blocks, ∃ op, b.program.get? addr = some op ∧
    op.opcode ∈ [Opcode.ifBlock, .elseBlock, .whileLoop, .doLoop]
  /-- the `do` of an open loop jumps to its `while`, which has no open block any more -/
  loops : ∀ addr ∈ b.blocks, ∀ op, b.program.get? addr = some op → op.opcode = .doLoop →
    ∃ start, op.jump = some start ∧ start < addr ∧ start ∉ b.blocks ∧
      ∃ word, b.program.get? start = some word ∧ word.opcode = .whileLoop

variable {o : Options} {ts : List Token} {b : Buffer} {s : Lowering} {mvs : List Move}

/-- Stored tokens that wait without a trail have no origin. -/
theorem eq_map_of_forall₂_source {frames : List Expansion} {stored : List (Token × Option Nat)}
    {left : List Token} (h : List.Forall₂ (Stores frames) stored (source left)) :
    stored = left.map (·, none) := by
  induction left generalizing stored with
  | nil => exact List.forall₂_nil_right_iff.1 h
  | cons t left ih =>
    obtain ⟨⟨t', origin⟩, stored', ⟨rfl, htrail⟩, hrest, rfl⟩ := List.forall₂_cons_right_iff.1 h
    obtain rfl : origin = none := origin_eq_none htrail
    rw [List.map_cons, ih hrest]

theorem of_forall₂_expanded {frames : List Expansion} {stored : List (Token × Option Nat)}
    {expanded : List Pending} (h : List.Forall₂ (Stores frames) stored expanded)
    (hfree : EndFree expanded) (htrail : ∀ i ∈ expanded, i.trail ≠ []) :
    ∀ x ∈ stored, x.2 ≠ none ∧ x.1.isEnd = false := by
  induction h with
  | nil => exact nofun
  | @cons x i stored expanded hx hrest ih =>
    refine List.forall_mem_cons.2 ⟨⟨?_, ?_⟩, ?_⟩
    · intro hnone
      have hsource := hx.2
      rw [hnone, trail?_none] at hsource
      exact htrail i List.mem_cons_self (Option.some.inj hsource).symm
    · rw [hx.1]
      exact hfree i List.mem_cons_self
    · exact ih hfree.tail fun j hj => htrail j (List.mem_cons_of_mem i hj)

namespace Holds

theorem divided (h : Holds b s) (hs : s.Divided o ts) : b.Divided o ts := by
  obtain ⟨left, expanded, hleft, hq, hfree, htrail⟩ := hs
  have hwaiting := h.waiting
  rw [hq] at hwaiting
  unfold Divided
  generalize o.placement = placement at hwaiting ⊢
  cases placement with
  | tail =>
    have hfront := List.forall₂_take_append _ _ _ hwaiting
    have hback := List.forall₂_drop_append _ _ _ hwaiting
    refine ⟨left, _, hleft, ?_, of_forall₂_expanded hback hfree htrail⟩
    rw [← eq_map_of_forall₂_source hfront, List.take_append_drop]
  | inPlace =>
    have hfront := List.forall₂_take_append _ _ _ hwaiting
    have hback := List.forall₂_drop_append _ _ _ hwaiting
    refine ⟨left, _, hleft, ?_, of_forall₂_expanded hfront hfree htrail⟩
    rw [← eq_map_of_forall₂_source hback, List.take_append_drop]

/-- The word of an open block is in the program of the buffer. -/
theorem exists_block (h : Holds b s) (hs : s.assembly.Tidy) {addr : Nat} (haddr : addr ∈ b.blocks) :
    ∃ block ∈ s.assembly.blocks, block.addr = addr ∧
      ∃ op, b.program.get? addr = some op ∧ op.opcode = block.opener.opcode ∧
        ∀ start, block.opener = .doLoop start → op.jump = some start := by
  rw [h.blocks] at haddr
  obtain ⟨block, hblock, rfl⟩ := List.mem_map.1 haddr
  obtain ⟨op, hop, hopcode, -, hjump⟩ := hs.exists_held hblock
  rw [← h.program] at hop
  exact ⟨block, hblock, rfl, op, hop, hopcode, hjump⟩

theorem loops (h : Holds b s) (hs : s.assembly.Tidy) {addr : Nat} (haddr : addr ∈ b.blocks)
    {op : Operation} (hop : b.program.get? addr = some op) (hdo : op.opcode = .doLoop) :
    ∃ start, op.jump = some start ∧ start < addr ∧ start ∉ b.blocks ∧
      ∃ word, b.program.get? start = some word ∧ word.opcode = .whileLoop := by
  obtain ⟨block, hblock, rfl, op', hop', hopcode, hjump⟩ := h.exists_block hs haddr
  cases hop.symm.trans hop'
  obtain ⟨start, hstart⟩ : ∃ start, block.opener = .doLoop start := by
    rw [hdo] at hopcode
    cases hopener : block.opener with
    | doLoop start => exact ⟨start, rfl⟩
    | _ => rw [hopener] at hopcode; cases hopcode
  obtain ⟨hlt, hclosed, word, hword, hwhile⟩ := hs.loops block hblock start hstart
  have hstacked : start ∉ b.blocks := by
    rw [h.blocks]
    intro hmem
    obtain ⟨c, hc, hce⟩ := List.mem_map.1 hmem
    exact hclosed c hc hce
  have hheld : b.program.unlinked = s.assembly.program.unlinked := by
    rw [h.program]
    exact Assembly.unlinked_withLoops ..
  rw [← hheld, Program.getElem?_unlinked] at hword
  obtain ⟨word', hword', rfl⟩ := Option.map_eq_some_iff.1 hword
  exact ⟨start, hjump start hstart, hlt, hstacked, word', hword', hwhile⟩

/-- **The storage of a lowering is valid.** -/
theorem valid (h : Holds b s) (hpath : Path o (.start ts) mvs s) : b.Valid o ts := by
  have htidy := hpath.tidy Assembly.tidy_empty
  constructor
  case length_origins => exact h.length_origins
  case position_le => exact h.position_le
  case origin_lt => exact h.origin_lt
  case parent_lt =>
    intro k parent name hk
    obtain ⟨trail, htrail, -⟩ := h.trails k (List.getElem?_eq_some_iff.1 hk).1
    obtain ⟨_, _, _, hk', hlt, -⟩ := trail?_eq_some_iff.1 htrail
    cases hk.symm.trans hk'
    exact hlt parent rfl
  case trails =>
    rw [h.macros, MacroTable.names_map]
    exact h.trails
  case endFree =>
    rw [h.macros]
    intro e he
    obtain ⟨e', -, rfl⟩ := List.mem_map.1 he
    exact e'.2.endFree
  case noBuiltin =>
    rw [h.macros, MacroTable.NoBuiltin, MacroTable.names_map]
    exact hpath.noBuiltin MacroTable.noBuiltin_empty
  case divided => exact h.divided hpath.divided
  case descending =>
    rw [h.blocks]
    exact List.pairwise_map.2 htidy.descending
  case opened =>
    intro addr haddr
    obtain ⟨block, -, -, op, hop, hopcode, -⟩ := h.exists_block htidy haddr
    refine ⟨op, hop, ?_⟩
    rw [hopcode]
    cases block.opener <;> simp [Opener.opcode]
  case loops => exact fun addr haddr op hop hdo => h.loops htidy haddr hop hdo

end Holds

/-! ## All turns -/

/-- At the end of a lowering, its buffer returns the result. -/
theorem Holds.returned (h : Holds b s) (hpath : Path o (.start ts) mvs s)
    (hend : s.waiting = [] ∨ ∃ e, Fails o s e) :
    b.step o = .error (.returned (lower o ts).result) := by
  have htidy := hpath.tidy Assembly.tidy_empty
  rcases hpath.result_of_halted hend #[] with ⟨hq, hresult⟩ | ⟨e, hfails, hresult⟩
  · rw [h.finished htidy hq, lower, hresult]
  · rw [h.failed htidy hfails, lower, hresult]
    rfl

/-- After `n` turns the buffer holds the lowering after `n` steps, or the lowering has come to its
end. -/
theorem after_eq (o : Options) (ts : List Token) (n : Nat) :
    match after o ts n with
    | .ok b => ∃ mvs s, Path o (.start ts) mvs s ∧ mvs.length = n ∧ Holds b s
    | .error stop => stop = .returned (lower o ts).result := by
  induction n with
  | zero => exact ⟨[], .start ts, .nil _, rfl, holds_start ts⟩
  | succ n ih =>
    rw [after]
    cases hafter : after o ts n with
    | error stop =>
      rw [hafter] at ih
      exact ih
    | ok b =>
      rw [hafter] at ih
      obtain ⟨mvs, s, hpath, hlength, hholds⟩ := ih
      dsimp only
      rcases halted_or_exists_step o s with hend | ⟨mv, s', hstep⟩
      · rw [hholds.returned hpath hend]
      · have htidy := hpath.tidy Assembly.tidy_empty
        obtain ⟨b', hturn, hholds'⟩ :=
          hholds.step htidy (hpath.trailed (trailed_start ts)) hstep
        rw [hturn]
        refine ⟨mvs ++ [mv], s', hpath.append (.single hstep), ?_, hholds'⟩
        rw [List.length_append, hlength, List.length_singleton]

/-- The buffer comes to its end. -/
theorem exists_after_eq (o : Options) (ts : List Token) :
    ∃ n, after o ts n = .error (.returned (lower o ts).result) := by
  obtain ⟨⟨mvs, s, -, -, hlongest⟩, -⟩ := lower_terminates o ts
  refine ⟨mvs.length + 1, ?_⟩
  have h := after_eq o ts (mvs.length + 1)
  cases hafter : after o ts (mvs.length + 1) with
  | error stop =>
    rw [hafter] at h
    rw [h]
  | ok b =>
    rw [hafter] at h
    obtain ⟨mvs', s', hpath', hlength, -⟩ := h
    have hle := hlongest mvs' s' hpath'
    omega

/-- **The storage is always valid**, in either placement and with any limit. After `n` turns it
holds the lowering after `n` steps, or the turns have ended with the result of the lowering, which
they do. So no access is out of range, the trail of every token is found, and the body of every
macro is there. -/
theorem after_valid (o : Options) (ts : List Token) :
    (∀ n,
      match after o ts n with
      | .ok b => b.Valid o ts ∧
          ∃ mvs s, Path o (.start ts) mvs s ∧ mvs.length = n ∧ Holds b s
      | .error stop => stop = .returned (lower o ts).result) ∧
    (∃ n, after o ts n = .error (.returned (lower o ts).result)) ∧
    ∀ report, (lower o ts).result ≠ .error (.internal report) := by
  refine ⟨fun n => ?_, exists_after_eq o ts, fun report h => ?_⟩
  · have h := after_eq o ts n
    split at h
    · obtain ⟨mvs, s, hpath, hlength, hholds⟩ := h
      exact ⟨hholds.valid hpath, mvs, s, hpath, hlength, hholds⟩
    · exact h
  · obtain ⟨location, hlocation⟩ := exists_location_of_run_error h
    cases hlocation

/-- In `macro g 1 end macro f g end f` the body of `g` comes from the expansion of `f`. -/
example :
    let word (name : String) : Token := ⟨⟨"a", 0⟩, .identifier name⟩
    let ts : List Token := [word "macro", word "g", ⟨⟨"a", 0⟩, .intLiteral 1⟩, word "end",
      word "macro", word "f", word "g", word "end", word "f"]
    (after ⟨.inPlace, none, true⟩ ts 4).toOption.map (fun b =>
      (b.position, b.origins.drop 8, b.frames.map (·.name), b.frames.map (·.parent))) =
        some (10, [none, some 0, some 1], ["f", "g"], [none, some 0]) := by
  cbv

end Buffer

end StackLang
