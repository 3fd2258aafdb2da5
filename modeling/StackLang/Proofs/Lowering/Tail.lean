import StackLang.Proofs.Lowering.Placements
import StackLang.Proofs.Lowering.Recursion

/-!
# Bodies that run last hold no keywords

When bodies run last, what waits has two parts: tokens that were there before, and behind them
bodies, in which there is no `end`. A `Turn` says what happens to both parts when the token in front
has its turn: a definition is taken from the first part alone, and an expansion adds to the second.

**Theorem (`Path.keywordFree`).** If such a lowering comes to its end with all blocks closed, then
no body has a keyword in it. A body could only open blocks, and nothing that follows it could close
them.

**Theorem (`Path.level`).** When the first part has been used up, its direct tokens outside of
definitions have been emitted in their order, and the bodies of the others wait in their order.

**Theorem (`lower_tail_keywords`).** So control structures and definitions are those of the source.
-/

namespace StackLang

/-! ## Keywords -/

/-- The words that build control structures and definitions. -/
def keywords : List String :=
  ["if", "else", "while", "do", "end", "macro"]

/-- True of an identifier that is a keyword. -/
def Token.isKeyword (t : Token) : Bool :=
  keywords.any t.word.isIdentifier

namespace Token

variable {t : Token} {op : Operation}

theorem exists_of_isKeyword (h : t.isKeyword = true) :
    ∃ word ∈ keywords, t.word = .identifier word := by
  obtain ⟨word, hmem, hword⟩ := List.any_eq_true.1 h
  refine ⟨word, hmem, ?_⟩
  cases hw : t.word with
  | identifier name => simpa [hw, Word.isIdentifier, Word.identifier?] using hword
  | _ => simp [hw, Word.isIdentifier, Word.identifier?] at hword

/-- Every keyword is a builtin word. -/
theorem exists_opcode_of_mem_keywords {word : String} (h : word ∈ keywords) :
    ∃ opcode, Opcode.ofWord? word = some opcode := by
  refine Option.isSome_iff_exists.1 ?_
  revert word
  decide

/-- Apart from the word `macro`, the keywords are the words of the control opcodes. -/
theorem isKeyword_eq (h : t.operation = .ok op) (hne : op.opcode ≠ .macroWord) :
    t.isKeyword = op.opcode.isControl := by
  unfold isKeyword
  unfold operation at h
  split at h
  · next hword => cases h; rw [hword]; rfl
  · next hword => cases h; rw [hword]; rfl
  · next name hword =>
    split at h
    · next opcode hop =>
      cases h
      have hname := Opcode.ofWord?_eq_some_iff.1 hop
      rw [hword]
      cases opcode <;> cases hname <;> first | rfl | exact absurd rfl hne
    · cases h

end Token

/-! ## Tokens outside of definitions -/

/-- The tokens of a source that belong to no definition. A definition is the word `macro` and all
up to the next `end`. -/
def outsideDefinitions : List Token → List Token
  | [] => []
  | t :: ts =>
    if t.word = .identifier "macro" then outsideDefinitions (afterEnd ts)
    else t :: outsideDefinitions ts
termination_by ts => ts.length
decreasing_by
  · exact Nat.lt_succ_of_le (afterEnd_suffix ts).length_le
  · exact Nat.lt_succ_self _

theorem outsideDefinitions_cons {t : Token} (h : t.word ≠ .identifier "macro") (ts : List Token) :
    outsideDefinitions (t :: ts) = t :: outsideDefinitions ts := by
  rw [outsideDefinitions, if_neg h]

/-- What follows the first `end` is found behind any tokens that are no `end`. -/
theorem afterEnd_append {inner : List Token} (h : ∀ t ∈ inner, t.isEnd = false) {close : Token}
    (hclose : close.isEnd = true) (ts : List Token) : afterEnd (inner ++ close :: ts) = ts := by
  have hskip : (inner ++ close :: ts).dropWhile (!·.isEnd) = close :: ts := by
    rw [List.dropWhile_append_of_pos fun t ht => by simp [h t ht], List.dropWhile_cons]
    simp [hclose]
  rw [afterEnd, hskip, List.drop_one, List.tail_cons]

theorem outsideDefinitions_definition {t : Token} (h : t.word = .identifier "macro")
    {inner : List Token} (hinner : ∀ t ∈ inner, t.isEnd = false) {close : Token}
    (hclose : close.isEnd = true) (ts : List Token) :
    outsideDefinitions (t :: (inner ++ close :: ts)) = outsideDefinitions ts := by
  rw [outsideDefinitions, if_pos h, afterEnd_append hinner hclose]

theorem isKeyword_of_definition {t : Token} (h : t.word = .identifier "macro") :
    t.isKeyword = true := by
  rw [Token.isKeyword, h]
  decide

theorem outsideDefinitions_of_keywordFree {ts : List Token} (h : ∀ t ∈ ts, t.isKeyword = false) :
    outsideDefinitions ts = ts := by
  induction ts with
  | nil => rw [outsideDefinitions]
  | cons t ts ih =>
    have ht : t.word ≠ .identifier "macro" := by
      intro hword
      cases (h t List.mem_cons_self).symm.trans (isKeyword_of_definition hword)
    rw [outsideDefinitions_cons ht, ih fun u hu => h u (List.mem_cons_of_mem t hu)]

/-- A body enters the queue as it was stored. -/
theorem MacroBody.map_token_pending (b : MacroBody) (name : String) (trail : List String) :
    (b.pending name trail).map (·.token) = b.tokens := by
  rw [pending, List.map_map]
  exact List.map_id _

namespace MacroTable

variable {m : MacroTable MacroBody}

/-- The tokens that invoke no macro. -/
def direct (m : MacroTable MacroBody) (ts : List Token) : List Token :=
  ts.filter (!m.contains ·.word)

/-- The bodies that tokens invoke, one after the other. -/
def called (m : MacroTable MacroBody) (ts : List Token) : List Token :=
  ts.flatMap fun t => ((m.get? t.word).map (·.tokens)).getD []

theorem direct_cons_of_none {t : Token} (h : m.invoked? t.word = none) (ts : List Token) :
    m.direct (t :: ts) = t :: m.direct ts := by
  rw [direct, List.filter_cons_of_pos (by simp [contains, h])]
  rfl

theorem called_cons_of_none {t : Token} (h : m.invoked? t.word = none) (ts : List Token) :
    m.called (t :: ts) = m.called ts := by
  rw [called, List.flatMap_cons, get?, h]
  rfl

theorem direct_cons_of_some {t : Token} {e : String × MacroBody} (h : m.invoked? t.word = some e)
    (ts : List Token) : m.direct (t :: ts) = m.direct ts := by
  rw [direct, List.filter_cons_of_neg (by simp [contains, h])]
  rfl

theorem called_cons_of_some {t : Token} {e : String × MacroBody} (h : m.invoked? t.word = some e)
    (ts : List Token) : m.called (t :: ts) = e.2.tokens ++ m.called ts := by
  rw [called, List.flatMap_cons, get?, h]
  rfl

/-- A literal or a builtin word invokes nothing. -/
theorem NoBuiltin.invoked?_of_operation (h : m.NoBuiltin) {t : Token} {op : Operation}
    (hop : t.operation = .ok op) : m.invoked? t.word = none := by
  rw [Option.eq_none_iff_forall_ne_some]
  intro e he
  rw [Token.operation_of_not_builtin (word_of_invoked? he) (h.ofWord?_eq_none he)] at hop
  cases hop

/-- No macro has the name of a keyword. -/
theorem NoBuiltin.isKeyword_eq_false (h : m.NoBuiltin) {t : Token} {e : String × MacroBody}
    (he : m.invoked? t.word = some e) : t.isKeyword = false := by
  by_contra hkey
  obtain ⟨word, hmem, hword⟩ := Token.exists_of_isKeyword (Bool.of_not_eq_false hkey)
  obtain ⟨opcode, hop⟩ := Token.exists_opcode_of_mem_keywords hmem
  rw [hword, h.invoked?_eq_none hop] at he
  cases he

end MacroTable

namespace Lowering

variable {o : Options} {s s' : Lowering} {mv : Move} {mvs : List Move} {i : Pending}
  {front back front' back' : List Pending}

/-! ## Turns -/

/-- The turn of the token `i`, behind which wait first `front` and then `back`: the move, and what
waits after it. -/
inductive Turn (m : MacroTable MacroBody) (i : Pending) (front back : List Pending) :
    Move → List Pending → List Pending → Prop
  | emit {op : Operation} (hm : m.invoked? i.token.word = none) (hop : i.token.operation = .ok op)
      (hne : op.opcode ≠ .macroWord) : Turn m i front back (.emit op) front back
  | expand {name : String} {body : MacroBody}
      (hm : m.invoked? i.token.word = some (name, body)) :
      Turn m i front back (.expand i name body) front (back ++ body.pending name i.trail)
  | define {j close : Pending} {inner front' : List Pending} {name : String} {body : MacroBody}
      (hkey : i.token.word = .identifier "macro") (hname : m.checkName j.token = .ok name)
      (hfront : front = j :: inner ++ close :: front') (hinner : EndFree inner)
      (hclose : close.token.isEnd = true) :
      Turn m i front back (.define j.token name body) front' back

/-- **A step that runs bodies last is a turn**, if there is no `end` in the second part. -/
theorem Step.turn (ho : o.placement = .tail) (h : Step o s mv s')
    (hq : s.waiting = i :: front ++ back) (hback : EndFree back) :
    ∃ front' back', Turn s.macros i front back mv front' back' ∧ s'.waiting = front' ++ back' := by
  cases h with
  | emit hq' hm hop hne hplace =>
    cases hq.symm.trans hq'
    exact ⟨front, back, .emit hm hop hne, rfl⟩
  | @expand _ _ name body hq' hm hfree hlimit =>
    cases hq.symm.trans hq'
    refine ⟨front, back ++ body.pending name i.trail, .expand hm, ?_⟩
    rw [ho]
    exact List.append_assoc ..
  | @define _ j rest rest' name body hq' hm hkey hname hcut =>
    obtain ⟨rfl, htail⟩ := List.cons.inj (hq.symm.trans hq')
    cases front with
    | nil =>
      -- the name is in the second part, so no `end` can follow
      obtain rfl : back = j :: rest := htail
      cases (MacroBody.cut?_eq_none_iff.2 hback.tail).symm.trans hcut
    | cons j' front =>
      obtain ⟨rfl, rfl⟩ := List.cons.inj htail
      obtain ⟨front', hcut', rfl⟩ := MacroBody.cut?_append hback hcut
      obtain ⟨inner, close, rfl, hclose, hbody⟩ := MacroBody.eq_of_cut? hcut'
      refine ⟨front', back, .define hkey hname rfl (fun k hk => ?_) hclose, rfl⟩
      exact body.endFree k.token (hbody ▸ List.mem_map_of_mem hk)

theorem Turn.endFree {m : MacroTable MacroBody} (h : Turn m i front back mv front' back')
    (hback : EndFree back) : EndFree back' := by
  cases h with
  | emit => exact hback
  | @expand name body hm => exact hback.append (body.endFree_pending name i.trail)
  | define => exact hback

/-- Bodies stay until the first part has been used up. -/
theorem Turn.subset {m : MacroTable MacroBody} (h : Turn m i front back mv front' back') :
    back ⊆ back' := by
  cases h with
  | emit => exact List.Subset.refl _
  | expand => exact List.subset_append_left ..
  | define => exact List.Subset.refl _

/-! ## No keywords in bodies -/

/-- No token is a keyword. -/
def KeywordFree (waiting : List Pending) : Prop :=
  ∀ i ∈ waiting, i.token.isKeyword = false

/-- An operation that is no `end` is a plain one if no block is open after it, and none was open
before it. -/
theorem Step.closed_of_emit {op : Operation} (h : Step o s (.emit op) s')
    (hclosed : s'.assembly.blocks = []) (hend : op.opcode ≠ .endBlock) :
    s.assembly.blocks = [] ∧ op.opcode.isControl = false := by
  obtain ⟨hblocks, hplain⟩ := Assembly.of_placeAll_without_end h.placeAll hclosed
    (by simpa [Move.operation?] using hend)
  exact ⟨hblocks, hplain op (by simp [Move.operation?])⟩

/-- **Bodies hold no keywords**, if the lowering comes to its end with all blocks closed. Where only
bodies are left, all blocks are closed, and no control word is emitted any more. -/
theorem Path.keywordFree (ho : o.placement = .tail) (h : Path o s mvs s')
    (hend : s'.waiting = []) (hclosed : s'.assembly.blocks = []) (hm : s.macros.NoBuiltin)
    (hq : s.waiting = front ++ back) (hback : EndFree back) :
    KeywordFree back ∧ (front = [] → s.assembly.blocks = [] ∧
      ∀ op ∈ emitted mvs, op.opcode.isControl = false) := by
  induction h generalizing front back with
  | nil s =>
    obtain ⟨-, rfl⟩ := List.append_eq_nil_iff.1 (hq.symm.trans hend)
    exact ⟨nofun, fun _ => ⟨hclosed, nofun⟩⟩
  | @cons s s₁ s' mv mvs hstep hpath ih =>
    have hm₁ : s₁.macros.NoBuiltin := (Path.single hstep).noBuiltin hm
    cases front with
    | cons i front =>
      obtain ⟨front', back', hturn, hq₁⟩ := hstep.turn ho hq hback
      obtain ⟨hfree, -⟩ := ih hend hclosed hm₁ hq₁ (hturn.endFree hback)
      exact ⟨fun j hj => hfree j (hturn.subset hj), nofun⟩
    | nil =>
      cases back with
      | nil =>
        obtain ⟨i, queue, hne, -⟩ := hstep.advance
        cases hq.symm.trans hne
      | cons i back =>
        have hcons : s.waiting = i :: [] ++ back := hq
        obtain ⟨front', back', hturn, hq₁⟩ := hstep.turn ho hcons hback.tail
        obtain ⟨hfree, hrest⟩ := ih hend hclosed hm₁ hq₁ (hturn.endFree hback.tail)
        cases hturn with
        | @emit op hnone hop hne =>
          obtain ⟨hblocks₁, hplain⟩ := hrest rfl
          have hopEnd : op.opcode ≠ .endBlock := by
            intro heq
            have hword : i.token.word = .identifier "end" :=
              Token.word_of_operation hop (by rw [heq]; rfl)
            have hi := hback i List.mem_cons_self
            rw [Token.isEnd, hword] at hi
            exact absurd hi (by decide)
          obtain ⟨hblocks, hopPlain⟩ := hstep.closed_of_emit hblocks₁ hopEnd
          refine ⟨List.forall_mem_cons.2 ⟨?_, hfree⟩, fun _ => ⟨hblocks, ?_⟩⟩
          · rw [Token.isKeyword_eq hop hne, hopPlain]
          · exact List.forall_mem_cons.2 ⟨hopPlain, hplain⟩
        | @expand name body hsome =>
          obtain ⟨hblocks₁, hplain⟩ := hrest rfl
          refine ⟨List.forall_mem_cons.2 ⟨hm.isKeyword_eq_false hsome, fun j hj => ?_⟩,
            fun _ => ⟨?_, hplain⟩⟩
          · exact hfree j (List.mem_append_left _ hj)
          · have hsame : s.assembly = s₁.assembly := Except.ok.inj hstep.placeAll
            rw [hsame]
            exact hblocks₁
        | define _ _ hfront => cases hfront

/-! ## One level -/

/-- **The first part is dealt with in order.** The tokens of it that belong to no definition are
emitted, or their bodies wait behind the second part, all as the table says in the end. -/
theorem Path.level (ho : o.placement = .tail) (h : Path o s mvs s') (hend : s'.waiting = [])
    (hm : s'.macros.NoBuiltin) (hq : s.waiting = front ++ back) (hback : EndFree back) :
    ∃ mvs₁ s₁ mvs₂ bodies, mvs = mvs₁ ++ mvs₂ ∧ Path o s mvs₁ s₁ ∧ Path o s₁ mvs₂ s' ∧
      s₁.waiting = back ++ bodies ∧ EndFree bodies ∧
      bodies.map (·.token) = s'.macros.called (outsideDefinitions (front.map (·.token))) ∧
      (emitted mvs₁).map Except.ok =
        (s'.macros.direct (outsideDefinitions (front.map (·.token)))).map (·.operation) ∧
      (front ≠ [] → mvs₁ ≠ []) := by
  induction h generalizing front back with
  | nil s =>
    obtain ⟨rfl, rfl⟩ := List.append_eq_nil_iff.1 (hq.symm.trans hend)
    refine ⟨[], s, [], [], rfl, .nil s, .nil s, hend, nofun, ?_, ?_, nofun⟩
    all_goals rw [List.map_nil, outsideDefinitions]; rfl
  | @cons s s₀ s' mv mvs hstep hpath ih =>
    cases front with
    | nil =>
      refine ⟨[], s, mv :: mvs, [], rfl, .nil s, .cons hstep hpath, ?_, nofun, ?_, ?_, nofun⟩
      · rw [hq, List.append_nil, List.nil_append]
      all_goals rw [List.map_nil, outsideDefinitions]; rfl
    | cons i front =>
      obtain ⟨front', back', hturn, hq₀⟩ := hstep.turn ho hq hback
      obtain ⟨mvs₁, s₁, mvs₂, bodies, rfl, hpath₁, hpath₂, hwaiting, hfree, hbodies, hops, -⟩ :=
        ih hend hm hq₀ (hturn.endFree hback)
      cases hturn with
      | @emit op hnone hop hne =>
        have hkey := Token.word_ne_macroWord hop hne
        have hnone' := hm.invoked?_of_operation hop
        refine ⟨_ :: mvs₁, s₁, mvs₂, bodies, rfl, .cons hstep hpath₁, hpath₂, hwaiting, hfree,
          ?_, ?_, fun _ => List.cons_ne_nil _ _⟩
        · rw [List.map_cons, outsideDefinitions_cons hkey, MacroTable.called_cons_of_none hnone',
            hbodies]
        · rw [List.map_cons, outsideDefinitions_cons hkey, MacroTable.direct_cons_of_none hnone',
            List.map_cons, hop, ← hops]
          rfl
      | @expand name body hsome =>
        have hsome' : s'.macros.invoked? i.token.word = some (name, body) :=
          (Path.cons hstep hpath).extends _ _ hsome
        have hkey : i.token.word ≠ .identifier "macro" := by
          intro hword
          cases (hm.isKeyword_eq_false hsome').symm.trans (isKeyword_of_definition hword)
        refine ⟨_ :: mvs₁, s₁, mvs₂, body.pending name i.trail ++ bodies, rfl,
          .cons hstep hpath₁, hpath₂, ?_, (body.endFree_pending name i.trail).append hfree,
          ?_, ?_, fun _ => List.cons_ne_nil _ _⟩
        · rw [hwaiting, List.append_assoc]
        · rw [List.map_cons, outsideDefinitions_cons hkey, MacroTable.called_cons_of_some hsome',
            List.map_append, hbodies, MacroBody.map_token_pending]
        · rw [List.map_cons, outsideDefinitions_cons hkey, MacroTable.direct_cons_of_some hsome',
            ← hops]
          rfl
      | @define j close inner front' name body hkey hname hfront hinner hclose =>
        have hj : j.token.isEnd = false := by
          obtain ⟨hword, hbuiltin, -⟩ := MacroTable.checkName_eq_ok hname
          refine Bool.eq_false_iff.2 fun hend => ?_
          rw [Token.isEnd, hword] at hend
          obtain rfl : name = "end" := by simpa [Word.isIdentifier, Word.identifier?] using hend
          cases hbuiltin
        have hskip : outsideDefinitions ((i :: front).map (·.token)) =
            outsideDefinitions (front'.map (·.token)) := by
          rw [hfront, List.map_cons, List.map_append, List.map_cons]
          refine outsideDefinitions_definition hkey ?_ hclose _
          simpa [hj, EndFree] using hinner
        exact ⟨_ :: mvs₁, s₁, mvs₂, bodies, rfl, .cons hstep hpath₁, hpath₂, hwaiting, hfree,
          hskip ▸ hbodies, hskip ▸ hops, fun _ => List.cons_ne_nil _ _⟩

/-! ## Whole lowerings -/

section

variable {ts : List Token} {p : Program}

/-- A lowering that returns a program goes on to its end from every state on the way. -/
theorem Path.exists_rest (h : Path o s mvs s') {log : Array Event}
    (hrun : (run o s log).result = .ok p) :
    ∃ mvs' s'', Path o s' mvs' s'' ∧ s''.waiting = [] ∧ s''.assembly.blocks = [] ∧
      s''.assembly.program = p := by
  rw [run_of_path h] at hrun
  obtain ⟨mvs', s'', hrest, hend, hfinish⟩ := path_of_run_ok hrun
  obtain ⟨hclosed, hprogram⟩ := Assembly.finish_eq_ok_iff.1 hfinish
  exact ⟨mvs', s'', hrest, hend, hclosed, hprogram⟩

theorem Path.unlinked_start (h : Path o (start ts) mvs s) :
    s.assembly.program.unlinked = emitted mvs := by
  rw [h.unlinked]
  rfl

theorem emitted_append (mvs mvs' : List Move) :
    emitted (mvs ++ mvs') = emitted mvs ++ emitted mvs' :=
  List.filterMap_append

/-- The tokens of the source wait before those of bodies, where there is no `end`. -/
theorem Path.exists_parts (ho : o.placement = .tail) (h : Path o (start ts) mvs s) :
    ∃ front back, s.waiting = front ++ back ∧ (∀ i ∈ front, i.trail = []) ∧
      (∀ i ∈ back, i.trail ≠ []) ∧ EndFree back := by
  have htraced : s.Traced := h.traced (traced_start ts)
  obtain ⟨-, front, back, hq, hfront, hback⟩ :=
    h.invariant (I := fun s => s.Traced ∧ s.SourceFirst)
      (fun _ _ _ hs hstep => ⟨hstep.traced hs.1, hstep.sourceFirst ho hs.1 hs.2⟩)
      ⟨traced_start ts, sourceFirst_start ts⟩
  refine ⟨front, back, hq, hfront, hback, fun i hi => ?_⟩
  exact (htraced i (hq ▸ List.mem_append_right front hi)).isEnd_eq_false (hback i hi)

/-- On the way to a program no keyword waits but those of the source, and when the source has been
read all blocks are closed. -/
theorem Path.sourceKeywords (ho : o.placement = .tail) (h : Path o (start ts) mvs s)
    (hlower : (lower o ts).result = .ok p) :
    (∀ i ∈ s.waiting, i.trail ≠ [] → i.token.isKeyword = false) ∧
      ((∀ i ∈ s.waiting, i.trail ≠ []) → s.assembly.blocks = []) := by
  obtain ⟨front, back, hq, hfront, -, hfree⟩ := h.exists_parts ho
  obtain ⟨mvs', s', hrest, hend, hclosed, -⟩ := h.exists_rest hlower
  obtain ⟨hkeys, hblocks⟩ := hrest.keywordFree ho hend hclosed
    (h.noBuiltin MacroTable.noBuiltin_empty) hq hfree
  refine ⟨fun i hi htrail => ?_, fun hall => (hblocks ?_).1⟩
  · rw [hq] at hi
    rcases List.mem_append.1 hi with hi | hi
    · exact absurd (hfront i hi) htrail
    · exact hkeys i hi
  · refine List.eq_nil_iff_forall_not_mem.2 fun i hi => ?_
    exact hall i (hq ▸ List.mem_append_left back hi) (hfront i hi)

/-- The control words among operations come from the keywords among their tokens. -/
theorem filter_isControl {ops : List Operation} (h : ops.map Except.ok = ts.map (·.operation))
    (hne : ∀ op ∈ ops, op.opcode ≠ .macroWord) :
    (ops.filter (·.opcode.isControl)).map Except.ok =
      (ts.filter (·.isKeyword)).map (·.operation) := by
  induction ts generalizing ops with
  | nil =>
    obtain rfl := List.map_eq_nil_iff.1 h
    rfl
  | cons t ts ih =>
    cases ops with
    | nil => cases h
    | cons op ops =>
      obtain ⟨hop, hops⟩ := List.cons.inj h
      have ih := ih hops fun x hx => hne x (List.mem_cons_of_mem op hx)
      have hkey := Token.isKeyword_eq hop.symm (hne op List.mem_cons_self)
      rw [List.filter_cons, List.filter_cons, hkey]
      split
      · rw [List.map_cons, List.map_cons, hop, ih]
      · exact ih

/-- A keyword invokes no macro. -/
theorem filter_isKeyword_direct {m : MacroTable MacroBody} (hm : m.NoBuiltin) (ts : List Token) :
    (m.direct ts).filter (·.isKeyword) = ts.filter (·.isKeyword) := by
  rw [MacroTable.direct, List.filter_filter]
  refine List.filter_congr fun t _ => ?_
  cases hkey : t.isKeyword with
  | false => rfl
  | true =>
    have hnone : m.invoked? t.word = none := by
      rw [Option.eq_none_iff_forall_ne_some]
      intro e he
      cases hkey.symm.trans (hm.isKeyword_eq_false he)
    simp [MacroTable.contains, hnone]

/-- On the way to a program a keyword that has its turn is one of the source. -/
theorem Path.waiting_of_isKeyword (ho : o.placement = .tail) (h : Path o (start ts) mvs s)
    (hlower : (lower o ts).result = .ok p) {rest : List Pending} (hq : s.waiting = i :: rest)
    (hkey : i.token.isKeyword = true) : s.waiting = ⟨i.token, []⟩ :: rest := by
  have htrail : i.trail = [] := by
    by_contra hne
    cases hkey.symm.trans ((h.sourceKeywords ho hlower).1 i (hq ▸ List.mem_cons_self) hne)
  rw [hq, ← htrail]

end

/-- All control structures and definitions of a lowering of `ts` to `p` are those of the source. -/
structure KeywordsFromSource (o : Options) (ts : List Token) (p : Program) : Prop where
  /-- no body that is expanded holds a keyword -/
  expansion {mvs : List Move} {s s' : Lowering} {i : Pending} {name : String} {body : MacroBody} :
    Path o (start ts) mvs s → Step o s (.expand i name body) s' →
      ∀ t ∈ body.tokens, t.isKeyword = false
  /-- a control word is emitted for a token of the source -/
  emission {mvs : List Move} {s s' : Lowering} {op : Operation} :
    Path o (start ts) mvs s → Step o s (.emit op) s' → op.opcode.isControl = true →
      ∃ t rest, s.waiting = ⟨t, []⟩ :: rest ∧ t.operation = .ok op
  /-- a definition is started by a token of the source -/
  definition {mvs : List Move} {s s' : Lowering} {t : Token} {name : String} {body : MacroBody} :
    Path o (start ts) mvs s → Step o s (.define t name body) s' →
      ∃ key rest, s.waiting = ⟨key, []⟩ :: rest ∧ key.word = .identifier "macro"
  /-- all blocks are closed when the last token of the source has been taken -/
  closed {mvs : List Move} {s : Lowering} :
    Path o (start ts) mvs s → (∀ i ∈ s.waiting, i.trail ≠ []) → s.assembly.blocks = []
  /-- the control words of the program are those outside of definitions, in their order -/
  control : (p.unlinked.filter (·.opcode.isControl)).map Except.ok =
    ((outsideDefinitions ts).filter (·.isKeyword)).map (·.operation)

/-- **Macros contribute no control flow when bodies run last.** If a source has a program, then all
control structures and definitions on the way to it are those of the source. -/
theorem lower_tail_keywords {limit : Option Nat} {verify : Bool} {ts : List Token} {p : Program}
    (h : (lower ⟨.tail, limit, verify⟩ ts).result = .ok p) :
    KeywordsFromSource ⟨.tail, limit, verify⟩ ts p where
  expansion {_ _ _ i name body} hpath hstep t ht := by
    obtain ⟨mvs', s'', hrest, hend, hclosed, -⟩ := (hpath.append (.single hstep)).exists_rest h
    have hm := (hpath.append (.single hstep)).noBuiltin MacroTable.noBuiltin_empty
    cases hstep with
    | expand =>
      obtain ⟨hfree, -⟩ := hrest.keywordFree rfl hend hclosed hm rfl
        (body.endFree_pending name i.trail)
      exact hfree ⟨t, name :: i.trail⟩ (List.mem_map_of_mem ht)
  emission hpath hstep hcontrol := by
    cases hstep with
    | @emit i rest op a hq hm hop hne hplace =>
      have hkey := (Token.isKeyword_eq hop hne).trans hcontrol
      exact ⟨i.token, rest, hpath.waiting_of_isKeyword rfl h hq hkey, hop⟩
  definition hpath hstep := by
    cases hstep with
    | @define i j rest rest' name body hq hm hkey hname hcut =>
      exact ⟨i.token, _, hpath.waiting_of_isKeyword rfl h hq (isKeyword_of_definition hkey), hkey⟩
  closed hpath hall := (hpath.sourceKeywords rfl h).2 hall
  control := by
    obtain ⟨mvs, s, hpath, hend, hclosed, rfl⟩ := (Path.nil (start ts)).exists_rest h
    have hm := hpath.noBuiltin MacroTable.noBuiltin_empty
    obtain ⟨mvs₁, s₁, mvs₂, bodies, rfl, hpath₁, hpath₂, hwaiting, hfree, -, hops, -⟩ :=
      hpath.level rfl hend hm (List.append_nil (source ts)).symm nofun
    rw [map_token_source] at hops
    -- what comes after the source has been read is plain
    obtain ⟨-, hlate⟩ := hpath₂.keywordFree rfl hend hclosed
      (hpath₁.noBuiltin MacroTable.noBuiltin_empty) hwaiting hfree
    have hplain : (emitted mvs₂).filter (·.opcode.isControl) = [] := by
      rw [List.filter_eq_nil_iff]
      intro op hop
      simp [(hlate rfl).2 op hop]
    rw [hpath.unlinked_start, emitted_append, List.filter_append, hplain, List.append_nil,
      filter_isControl hops fun op hop => (hpath₁.of_mem_emitted hop).2, filter_isKeyword_direct hm]

/-- `macro f 1 end if f end`, where the body of `f` runs after the block that invokes it. -/
theorem lower_tail_keywords_if :
    let ts : List Token := [⟨⟨"a", 0⟩, .identifier "macro"⟩, ⟨⟨"a", 0⟩, .identifier "f"⟩,
      ⟨⟨"a", 0⟩, .intLiteral 1⟩, ⟨⟨"a", 0⟩, .identifier "end"⟩, ⟨⟨"a", 1⟩, .identifier "if"⟩,
      ⟨⟨"a", 2⟩, .identifier "f"⟩, ⟨⟨"a", 3⟩, .identifier "end"⟩]
    let p : Program := ⟨#[⟨.ifBlock, none, some 1, ⟨"a", 1⟩⟩, ⟨.endBlock, none, some 2, ⟨"a", 3⟩⟩,
      .pushInt 1 ⟨"a", 0⟩]⟩
    (lower ⟨.tail, some 1, true⟩ ts).result = .ok p ∧
      KeywordsFromSource ⟨.tail, some 1, true⟩ ts p := by
  intro ts p
  have hpath : ∃ mvs s, Path ⟨.tail, some 1, true⟩ (start ts) mvs s ∧ s.waiting = [] ∧
      s.assembly.finish = .ok p :=
    ⟨_, _, .cons (.define rfl rfl rfl rfl rfl) (.cons (.emit rfl rfl rfl nofun rfl)
      (.cons (.expand rfl rfl (by decide) (fun _ h => by cases h; decide))
        (.cons (.emit rfl rfl rfl nofun rfl) (.cons (.emit rfl rfl rfl nofun rfl) (.nil _))))),
      rfl, rfl⟩
  obtain ⟨mvs, s, hpath, hend, hfinish⟩ := hpath
  have hlower : (lower ⟨.tail, some 1, true⟩ ts).result = .ok p :=
    run_ok_of_path hpath hend hfinish
  exact ⟨hlower, lower_tail_keywords hlower⟩

end Lowering

end StackLang
