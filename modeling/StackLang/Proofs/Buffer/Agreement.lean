import Mathlib.Data.List.Forall2
import StackLang.Proofs.Buffer.Assembling
import StackLang.Proofs.Buffer.Storage
import StackLang.Proofs.Lowering.Termination

/-!
# The buffer of a lowering

A buffer holds a lowering (`Holds`) if its pending tokens are those that wait, with the trails
to which their origins lead, and if the rest of the storage is what the lowering has: the table
without the knowledge that its bodies have no `end`, and the addresses of the open blocks.

**Theorem (`Holds.step`, `Holds.failed`, `Holds.finished`).** A turn of the buffer is a step of
the lowering it holds, and it fails or ends as the lowering does. No access of a turn is out of
range, for three reasons: the numbers of expansions are given out in order, tokens and origins
are always inserted together, and an assembly is tidy.
-/

namespace StackLang.Buffer

open Lowering

/-- A token in the storage with its origin is a token that waits with its trail. -/
def Stores (frames : List Expansion) (x : Token × Option Nat) (i : Pending) : Prop :=
  x.1 = i.token ∧ trail? frames x.2 = some i.trail

/-- The buffer `b` holds the lowering `s`. -/
structure Holds (b : Buffer) (s : Lowering) : Prop where
  length_origins : b.origins.length = b.tokens.length
  position_le : b.position ≤ b.tokens.length
  waiting : List.Forall₂ (Stores b.frames) b.pending s.waiting
  origin_lt : ∀ k, some k ∈ b.origins → k < b.frames.length
  /-- every expansion has a trail -/
  trails : ∀ k < b.frames.length, ∃ trail, trail? b.frames (some k) = some trail ∧
    trail.Nodup ∧ trail ⊆ s.macros.names
  macros : b.macros = s.macros.map (·.tokens)
  program : b.program = s.assembly.held
  blocks : b.blocks = s.assembly.addresses
  expansions : b.expansions = s.expansions

theorem holds_start (ts : List Token) : Holds (start ts) (.start ts) where
  length_origins := List.length_map _
  position_le := Nat.zero_le _
  waiting := by
    rw [waiting_start, pending, start, List.drop_zero]
    induction ts with
    | nil => exact .nil
    | cons t ts ih => exact .cons ⟨rfl, trail?_none []⟩ ih
  origin_lt k hk := by
    obtain ⟨t, -, ht⟩ := List.mem_map.1 hk
    cases ht
  trails k hk := absurd hk (Nat.not_lt_zero k)
  macros := rfl
  program := rfl
  blocks := rfl
  expansions := rfl

namespace Holds

variable {o : Options} {b : Buffer} {s s' : Lowering} {i j : Pending} {rest : List Pending}
  {name : String} {body : MacroBody} {op : Operation} {mv : Move} {e : CompileError}

/-! ## The token at the position -/

/-- The first token that waits is pending. -/
theorem exists_pending (h : Holds b s) (hq : s.waiting = i :: rest) :
    ∃ origin stored, b.pending = (i.token, origin) :: stored ∧
      trail? b.frames origin = some i.trail ∧ List.Forall₂ (Stores b.frames) stored rest := by
  have hwaiting := h.waiting
  rw [hq] at hwaiting
  obtain ⟨⟨t, origin⟩, stored, ⟨rfl, htrail⟩, hrest, hpending⟩ :=
    List.forall₂_cons_right_iff.1 hwaiting
  exact ⟨origin, stored, hpending, htrail, hrest⟩

/-- The pending tokens without their origins are those that wait without their trails. -/
theorem tokens_drop (h : Holds b s) (n : Nat) :
    b.tokens.drop (b.position + n) = (s.waiting.drop n).map (·.token) := by
  rw [← map_pending h.length_origins]
  have hdrop := List.forall₂_drop n h.waiting
  generalize b.pending.drop n = stored at hdrop ⊢
  generalize s.waiting.drop n = waiting at hdrop ⊢
  induction hdrop with
  | nil => rfl
  | cons hstores _ ih => rw [List.map_cons, List.map_cons, hstores.1, ih]

theorem getElem?_position (h : Holds b s) (hq : s.waiting = i :: rest) :
    b.position < b.tokens.length ∧ b.tokens[b.position]? = some i.token := by
  obtain ⟨origin, stored, hpending, -⟩ := h.exists_pending hq
  exact ⟨position_lt hpending, (of_pending_eq_cons hpending).1⟩

/-- The word of a macro is expanded. -/
theorem step_eq_expand (h : Holds b s) (hq : s.waiting = i :: rest)
    (hm : s.macros.invoked? i.token.word = some (name, body)) :
    b.step o = b.expand o i.token := by
  obtain ⟨hlt, htoken⟩ := h.getElem?_position hq
  have hcontains : b.macros.contains i.token.word = true := by
    rw [h.macros, MacroTable.contains, MacroTable.invoked?_map, hm]
    rfl
  simp only [step, if_pos hlt, htoken, if_pos hcontains]

/-- Any other word is looked at for its operation. -/
theorem step_eq (h : Holds b s) (hq : s.waiting = i :: rest)
    (hm : s.macros.invoked? i.token.word = none) :
    b.step o = match i.token.operation with
      | .error e => .error (.failed e)
      | .ok op => if op.opcode = .macroWord then b.define i.token else b.emit op := by
  obtain ⟨hlt, htoken⟩ := h.getElem?_position hq
  have hcontains : ¬ b.macros.contains i.token.word = true := by
    rw [h.macros, MacroTable.contains, MacroTable.invoked?_map, hm]
    exact Bool.false_ne_true
  rw [Buffer.step, if_pos hlt, htoken]
  exact if_neg hcontains

theorem step_eq_emit (h : Holds b s) (hq : s.waiting = i :: rest)
    (hm : s.macros.invoked? i.token.word = none) (hop : i.token.operation = .ok op)
    (hne : op.opcode ≠ .macroWord) : b.step o = b.emit op := by
  rw [h.step_eq hq hm, hop]
  exact if_neg hne

theorem step_eq_define (h : Holds b s) (hq : s.waiting = i :: rest)
    (hm : s.macros.invoked? i.token.word = none) (hkey : i.token.word = .identifier "macro") :
    b.step o = b.define i.token := by
  rw [h.step_eq hq hm, Token.operation_of_word hkey rfl]
  exact if_pos rfl

/-! ## Expansions -/

section

variable {origin : Option Nat} {stored : List (Token × Option Nat)}

theorem expand_eq (h : Holds b s) (hpending : b.pending = (i.token, origin) :: stored)
    (htrail : trail? b.frames origin = some i.trail)
    (hm : s.macros.invoked? i.token.word = some (name, body)) :
    b.expand o i.token =
      if name ∈ i.trail then .error (.failed (.recursiveMacro i.token.location name))
      else
        match o.limit.filter (· < s.expansions + 1) with
        | some limit => .error (.failed (.expansionLimit i.token.location name limit))
        | none => b.insertBody o.placement name origin body.tokens := by
  have horigin := (of_pending_eq_cons hpending).2.1
  have hword : i.token.word.text = name := by
    rw [MacroTable.word_of_invoked? hm]
    rfl
  have hbody : b.macros.get? i.token.word = some body.tokens := by
    rw [h.macros, MacroTable.get?, MacroTable.invoked?_map, hm]
    rfl
  cases hlimit : o.limit.filter (· < s.expansions + 1) <;>
    simp only [Buffer.expand, horigin, htrail, hword, hbody, h.expansions, hlimit]

/-- The origins of a body are numbers of expansions, like all others. -/
theorem origin_lt_insertAt (h : Holds b s) {placement : Placement} {n k : Nat}
    {body : List Token} {frame : Expansion}
    (hk : some k ∈ insertAt placement b.origins n (body.map fun _ => some b.frames.length)) :
    k < (b.frames ++ [frame]).length := by
  rw [List.length_append, List.length_singleton]
  rcases mem_insertAt hk with hk | hk
  · exact Nat.lt_succ_of_lt (h.origin_lt k hk)
  · obtain ⟨t, -, ht⟩ := List.mem_map.1 hk
    rw [← Option.some.inj ht]
    exact Nat.lt_succ_self _

/-- The trail of an expansion for the token at the position. -/
theorem trail?_new (h : Holds b s) (hpending : b.pending = (i.token, origin) :: stored)
    (htrail : trail? b.frames origin = some i.trail) (name : String) :
    trail? (b.frames ++ [⟨name, origin⟩]) (some b.frames.length) = some (name :: i.trail) := by
  refine trail?_concat htrail (fun k hk => h.origin_lt k ?_) name
  rw [← hk]
  exact List.mem_of_getElem? (of_pending_eq_cons hpending).2.1

/-- A body waits where it has been inserted, with the trail of its expansion. -/
theorem forall₂_insertAt (h : Holds b s) (hpending : b.pending = (i.token, origin) :: stored)
    (htrail : trail? b.frames origin = some i.trail)
    (hrest : List.Forall₂ (Stores b.frames) stored rest) (placement : Placement) (name : String)
    (body : MacroBody) :
    List.Forall₂ (Stores (b.frames ++ [⟨name, origin⟩]))
      (((insertAt placement b.tokens (b.position + 1) body.tokens).zip
        (insertAt placement b.origins (b.position + 1)
          (body.tokens.map fun _ => some b.frames.length))).drop (b.position + 1))
      (merge placement rest (body.pending name i.trail)) := by
  obtain ⟨-, -, hstored⟩ := of_pending_eq_cons hpending
  have hkept : List.Forall₂ (Stores (b.frames ++ [⟨name, origin⟩])) stored rest :=
    hrest.imp fun x i hx => ⟨hx.1, trail?_append hx.2 _⟩
  have hbody : List.Forall₂ (Stores (b.frames ++ [⟨name, origin⟩]))
      (body.tokens.map (·, some b.frames.length)) (body.pending name i.trail) := by
    rw [MacroBody.pending, List.forall₂_map_left_iff, List.forall₂_map_right_iff,
      List.forall₂_same]
    exact fun t _ => ⟨rfl, h.trail?_new hpending htrail name⟩
  rw [drop_zip_insertAt placement h.length_origins.symm (List.length_map _).symm
    (Nat.succ_le_of_lt (position_lt hpending)), hstored, zip_origins]
  cases placement with
  | tail => exact List.rel_append hkept hbody
  | inPlace => exact List.rel_append hbody hkept

end

theorem expand (h : Holds b s) (hs : s.Trailed) (hq : s.waiting = i :: rest)
    (hm : s.macros.invoked? i.token.word = some (name, body)) (hfree : name ∉ i.trail)
    (hlimit : Allows o s.expansions) :
    ∃ b', b.step o = .ok b' ∧ Holds b'
      ⟨.ofList (merge o.placement rest (body.pending name i.trail)), s.macros, s.assembly,
        s.expansions + 1⟩ := by
  obtain ⟨origin, stored, hpending, htrail, hrest⟩ := h.exists_pending hq
  obtain ⟨hlt, -⟩ := h.getElem?_position hq
  rw [h.step_eq_expand hq hm, h.expand_eq hpending htrail hm, if_neg hfree, allows_iff.1 hlimit]
  refine ⟨_, insertBody_eq h.length_origins hlt .., ?_⟩
  constructor
  case length_origins =>
    simp only [length_insertAt, h.length_origins, List.length_map]
  case position_le =>
    simp only [length_insertAt]
    omega
  case waiting => exact h.forall₂_insertAt hpending htrail hrest o.placement name body
  case origin_lt => exact fun k hk => h.origin_lt_insertAt hk
  case trails =>
    intro k hk
    rw [List.length_append, List.length_singleton, Nat.lt_succ_iff_lt_or_eq] at hk
    rcases hk with hk | rfl
    · obtain ⟨trail, htrail, hnames⟩ := h.trails k hk
      exact ⟨trail, trail?_append htrail _, hnames⟩
    · -- the name of the new expansion is not in the trail of its invocation
      obtain ⟨hnodup, hnames⟩ := hs i (by rw [hq]; exact List.mem_cons_self)
      exact ⟨_, h.trail?_new hpending htrail name, List.nodup_cons.2 ⟨hfree, hnodup⟩,
        List.cons_subset.2 ⟨MacroTable.mem_names_of_invoked? hm, hnames⟩⟩
  case macros => exact h.macros
  case program => exact h.program
  case blocks => exact h.blocks
  case expansions => exact congrArg (· + 1) h.expansions

/-! ## Definitions -/

/-- A definition reads its name and its body from the tokens behind the keyword. -/
theorem define_eq (h : Holds b s) (hq : s.waiting = i :: j :: rest) :
    b.define i.token =
      match s.macros.checkName j.token with
      | .error e => .error (.failed e)
      | .ok name =>
        match MacroBody.cut? rest with
        | none => .error (.failed (.incompleteMacro j.token.location name))
        | some (body, _) => .ok { b with
            position := b.position + 2 + body.tokens.length + 1
            macros := (s.macros.insert name body).map (·.tokens) } := by
  have hname : b.tokens[b.position + 1]? = some j.token := by
    have hdrop := h.tokens_drop 1
    rw [hq] at hdrop
    rw [← List.head?_drop, hdrop]
    rfl
  have hrest : b.tokens.drop (b.position + 2) = rest.map (·.token) := by
    rw [h.tokens_drop, hq]
    rfl
  have hle : b.position + 2 ≤ b.tokens.length := (List.getElem?_eq_some_iff.1 hname).1
  have hlength : rest.length = b.tokens.length - (b.position + 2) := by
    rw [← List.length_map (·.token), ← hrest, List.length_drop]
  have hslice : slice? b.tokens (b.position + 2) b.tokens.length = some (rest.map (·.token)) := by
    rw [slice?_eq hle le_rfl, hrest, List.take_of_length_le (by rw [List.length_map, hlength])]
  simp only [define, hname, hslice, h.macros, MacroTable.checkName_map, MacroTable.define]
  cases s.macros.checkName j.token with
  | error e => rfl
  | ok name =>
    cases hcut : MacroBody.cut? rest with
    | none => simp only [findIdx?_isEnd_eq_none hcut]
    | some p =>
      obtain ⟨body, rest'⟩ := p
      obtain ⟨hfind, htake, hlt, -⟩ := findIdx?_isEnd hcut
      have hbody : slice? b.tokens (b.position + 2) (b.position + 2 + body.tokens.length) =
          some body.tokens := by
        rw [slice?_eq (Nat.le_add_right ..) (by omega), hrest, Nat.add_sub_cancel_left, htake]
      simp only [hfind, hbody, Except.map, MacroTable.map_insert]

theorem define (h : Holds b s) (hq : s.waiting = i :: j :: rest)
    (hm : s.macros.invoked? i.token.word = none) (hkey : i.token.word = .identifier "macro")
    (hname : s.macros.checkName j.token = .ok name) {rest' : List Pending}
    (hcut : MacroBody.cut? rest = some (body, rest')) :
    ∃ b', b.step o = .ok b' ∧
      Holds b' ⟨.ofList rest', s.macros.insert name body, s.assembly, s.expansions⟩ := by
  obtain ⟨-, -, hlt, hdrop⟩ := findIdx?_isEnd hcut
  have hlength := congrArg List.length (h.tokens_drop 2)
  rw [hq, List.length_drop, List.length_map, List.drop_succ_cons, List.drop_succ_cons,
    List.drop_zero] at hlength
  have hdefine : b.define i.token = .ok { b with
      position := b.position + 2 + body.tokens.length + 1
      macros := (s.macros.insert name body).map (·.tokens) } := by
    rw [h.define_eq hq, hname]
    simp only [hcut]
  rw [h.step_eq_define hq hm hkey]
  refine ⟨_, hdefine, ?_⟩
  constructor
  case length_origins => exact h.length_origins
  case position_le =>
    dsimp only
    omega
  case waiting =>
    have hrest : s.waiting.drop (2 + body.tokens.length + 1) = rest' := by
      rw [Nat.add_assoc, ← List.drop_drop, hq]
      exact hdrop
    have hpending : b.pending.drop (2 + body.tokens.length + 1) =
        (b.tokens.zip b.origins).drop (b.position + 2 + body.tokens.length + 1) := by
      rw [pending, List.drop_drop, ← Nat.add_assoc, ← Nat.add_assoc]
    have hwaiting := List.forall₂_drop (2 + body.tokens.length + 1) h.waiting
    rw [hrest, hpending] at hwaiting
    exact hwaiting
  case origin_lt => exact h.origin_lt
  case trails =>
    intro k hk
    obtain ⟨trail, htrail, hnodup, hnames⟩ := h.trails k hk
    refine ⟨trail, htrail, hnodup, fun x hx => ?_⟩
    rw [MacroTable.names_insert]
    exact List.mem_append_left _ (hnames hx)
  case macros => rfl
  case program => exact h.program
  case blocks => exact h.blocks
  case expansions => exact h.expansions

/-! ## Operations -/

theorem emit_eq (h : Holds b s) (hs : s.assembly.Tidy) (op : Operation) :
    b.emit op = match s.assembly.place op with
      | .error e => .error (.failed e)
      | .ok a => .ok { b with
          program := a.held, blocks := a.addresses, position := b.position + 1 } := by
  rw [Buffer.emit, h.program, h.blocks, assemble_eq hs]
  cases s.assembly.place op <;> rfl

theorem emit (h : Holds b s) (hs : s.assembly.Tidy) (hq : s.waiting = i :: rest)
    (hm : s.macros.invoked? i.token.word = none) (hop : i.token.operation = .ok op)
    (hne : op.opcode ≠ .macroWord) {a : Assembly} (hplace : s.assembly.place op = .ok a) :
    ∃ b', b.step o = .ok b' ∧ Holds b' ⟨.ofList rest, s.macros, a, s.expansions⟩ := by
  obtain ⟨origin, stored, hpending, -, hrest⟩ := h.exists_pending hq
  rw [h.step_eq_emit hq hm hop hne, h.emit_eq hs, hplace]
  refine ⟨_, rfl, ?_⟩
  constructor
  case length_origins => exact h.length_origins
  case position_le => exact position_lt hpending
  case waiting =>
    rw [← (of_pending_eq_cons hpending).2.2] at hrest
    exact hrest
  case origin_lt => exact h.origin_lt
  case trails => exact h.trails
  case macros => exact h.macros
  case program => rfl
  case blocks => rfl
  case expansions => exact h.expansions

/-! ## Turns -/

/-- **A turn of the buffer is a step of the lowering.** -/
theorem step (h : Holds b s) (htidy : s.assembly.Tidy) (htrailed : s.Trailed)
    (hstep : Step o s mv s') : ∃ b', b.step o = .ok b' ∧ Holds b' s' := by
  cases hstep with
  | emit hq hm hop hne hplace => exact h.emit htidy hq hm hop hne hplace
  | expand hq hm hfree hlimit => exact h.expand htrailed hq hm hfree hlimit
  | define hq hm hkey hname hcut => exact h.define hq hm hkey hname hcut

/-- **A turn of the buffer fails as the lowering does.** -/
theorem failed (h : Holds b s) (htidy : s.assembly.Tidy) (hfails : Fails o s e) :
    b.step o = .error (.failed e) := by
  cases fails_iff.1 hfails with
  | recursive hq hm hmem =>
    obtain ⟨origin, stored, hpending, htrail, -⟩ := h.exists_pending hq
    rw [h.step_eq_expand hq hm, h.expand_eq hpending htrail hm, if_pos hmem]
  | limit hq hm hfree hlimit hcount =>
    obtain ⟨origin, stored, hpending, htrail, -⟩ := h.exists_pending hq
    rw [h.step_eq_expand hq hm, h.expand_eq hpending htrail hm, if_neg hfree, hlimit,
      Option.filter_some, if_pos (decide_eq_true (Nat.lt_succ_of_le hcount))]
  | operation hq hm hop => rw [h.step_eq hq hm, hop]
  | place hq hm hop hne hplace =>
    rw [h.step_eq_emit hq hm hop hne, h.emit_eq htidy, hplace]
  | noName hq hm hkey =>
    have hnone : b.tokens[b.position + 1]? = none := by
      rw [← List.head?_drop, h.tokens_drop, hq]
      rfl
    rw [h.step_eq_define hq hm hkey, Buffer.define]
    simp only [hnone]
  | name hq hm hkey hname => rw [h.step_eq_define hq hm hkey, h.define_eq hq, hname]
  | unfinished hq hm hkey hname hcut =>
    rw [h.step_eq_define hq hm hkey, h.define_eq hq, hname]
    simp only [hcut]

/-- **A buffer without pending tokens ends as the lowering does.** -/
theorem finished (h : Holds b s) (htidy : s.assembly.Tidy) (hq : s.waiting = []) :
    b.step o = .error (.returned s.assembly.finish) := by
  have hpending : b.pending = [] := by
    have hwaiting := h.waiting
    rw [hq] at hwaiting
    exact List.forall₂_nil_right_iff.1 hwaiting
  rw [Buffer.step, if_neg (Nat.not_lt_of_le (pending_eq_nil h.length_origins hpending))]
  have hblocks := h.blocks
  have hprogram := h.program
  unfold Assembly.addresses at hblocks
  cases hopen : s.assembly.blocks with
  | nil =>
    have hheld : s.assembly.held = s.assembly.program := by rw [Assembly.held, hopen]; rfl
    rw [hopen] at hblocks
    simp only [Buffer.finish, hblocks, hprogram, hheld, Assembly.finish, hopen, List.map_nil]
  | cons block outer =>
    obtain ⟨op, hop, hopcode, hlocation, -⟩ :=
      htidy.exists_held (hopen ▸ List.mem_cons_self : block ∈ s.assembly.blocks)
    rw [hopen] at hblocks
    simp only [Buffer.finish, hblocks, hprogram, hop, hopcode, hlocation, Assembly.finish, hopen,
      List.map_cons, Stop.failed]

end Holds

end StackLang.Buffer
