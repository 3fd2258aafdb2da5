import StackLang.Lowering
import StackLang.Proofs.Assembly
import StackLang.Proofs.Macro

/-!
# Paths of a lowering

A lowering is a sequence of steps, and every step does one of three things: it emits an operation,
expands a macro, or takes in a definition. `Step` says what each of them needs and what it
changes, `Path` strings steps together, and `Fails` says that a lowering cannot go on.

**Theorem (`exists_path_last`).** Every lowering is a path to the state `last`, where either
nothing is waiting or the next token is an error, and its log and its result are read off there.

So nothing after this file has to open `advance` or `run`: what holds of every step holds along
every path, and what holds of the last state holds of the outcome.
-/

namespace StackLang

/-! ## Tokens and their operations -/

namespace Token

theorem operation_eq_ok {t : Token} {op : Operation} (h : t.operation = .ok op) :
    op.jump = none ∧ op.location = t.location := by
  unfold operation at h
  split at h
  · cases h; exact ⟨rfl, rfl⟩
  · cases h; exact ⟨rfl, rfl⟩
  · split at h
    · cases h; exact ⟨rfl, rfl⟩
    · cases h

/-- Only an identifier has the opcode of a builtin word. -/
theorem word_of_operation {t : Token} {op : Operation} {word : String}
    (h : t.operation = .ok op) (hword : op.opcode.word? = some word) :
    t.word = .identifier word := by
  unfold operation at h
  split at h
  · cases h; cases hword
  · cases h; cases hword
  · next name hname =>
    split at h
    · next opcode hop =>
      cases h
      have hname' : opcode.word? = some name := Opcode.ofWord?_eq_some_iff.1 hop
      have heq : opcode.word? = some word := hword
      rw [hname, Option.some.inj (hname'.symm.trans heq)]
    · cases h

theorem operation_of_word {t : Token} {opcode : Opcode} {word : String}
    (h : t.word = .identifier word) (hop : Opcode.ofWord? word = some opcode) :
    t.operation = .ok (.plain opcode t.location) := by
  unfold operation
  rw [h]
  simp only [hop]

/-- Only the word `macro` starts a definition. -/
theorem word_ne_macroWord {t : Token} {op : Operation} (h : t.operation = .ok op)
    (hne : op.opcode ≠ .macroWord) : t.word ≠ .identifier "macro" := by
  intro hword
  rw [operation_of_word hword rfl] at h
  cases h
  exact hne rfl

theorem operation_of_not_builtin {t : Token} {word : String}
    (h : t.word = .identifier word) (hop : Opcode.ofWord? word = none) :
    t.operation = .error (.undefinedWord t.location word) := by
  unfold operation
  rw [h]
  simp only [hop]

/-- A token that has no operation is an unknown word. -/
theorem operation_eq_error {t : Token} {e : CompileError} (h : t.operation = .error e) :
    ∃ word, t.word = .identifier word ∧ Opcode.ofWord? word = none ∧
      e = .undefinedWord t.location word := by
  unfold operation at h
  split at h
  · cases h
  · cases h
  · next word hword =>
    split at h
    · cases h
    · next hop =>
      cases h
      exact ⟨word, hword, hop, rfl⟩

theorem location?_of_error {t : Token} {e : CompileError} (h : t.operation = .error e) :
    e.location? = some t.location := by
  obtain ⟨word, -, -, rfl⟩ := operation_eq_error h
  rfl

end Token

namespace Lowering

/-- The tokens that have not been taken yet, in the order of their turns. -/
def waiting (s : Lowering) : List Pending :=
  s.queue.toList

@[simp] theorem waiting_ofList (w : List Pending) (m : MacroTable MacroBody) (a : Assembly)
    (n : Nat) : waiting ⟨.ofList w, m, a, n⟩ = w := rfl

theorem waiting_start (ts : List Token) : (start ts).waiting = ts.map (⟨·, []⟩) := rfl

/-- The waiting tokens after a body has entered the queue. -/
def merge (placement : Placement) (rest body : List Pending) : List Pending :=
  match placement with
  | .tail => rest ++ body
  | .inPlace => body ++ rest

theorem mem_merge {placement : Placement} {xs ys : List Pending} {i : Pending} :
    i ∈ merge placement xs ys ↔ i ∈ xs ∨ i ∈ ys := by
  cases placement with
  | tail => exact List.mem_append
  | inPlace => exact List.mem_append.trans or_comm

theorem enqueue_eq (placement : Placement) (queue : Queue Pending) (body : List Pending) :
    enqueue placement queue body = .ofList (merge placement queue.toList body) := by
  cases placement
  · exact Queue.ext (Queue.toList_append ..)
  · exact Queue.ext (Queue.toList_prepend ..)

/-- The limit allows an expansion after `n` others. -/
def Allows (o : Options) (n : Nat) : Prop :=
  ∀ limit, o.limit = some limit → n < limit

theorem allows_iff {o : Options} {n : Nat} :
    Allows o n ↔ o.limit.filter (· < n + 1) = none := by
  unfold Allows
  cases o.limit with
  | none => simp
  | some limit =>
    simp only [Option.filter_eq_none_iff, Option.some.injEq, forall_eq', decide_eq_true_eq,
      Nat.not_lt]
    omega

/-! ## Steps -/

/-- What one step of a lowering does. -/
inductive Move
  | emit (op : Operation)
  /-- the body of the macro `name` replaces the token `i` -/
  | expand (i : Pending) (name : String) (body : MacroBody)
  /-- the token `t` becomes the name of a macro -/
  | define (t : Token) (name : String) (body : MacroBody)

/-- What is reported about a move. -/
def Move.event (placement : Placement) : Move → Option Event
  | emit _ => none
  | expand i name body =>
    some (.expanding i.token.location name body.tokens.length placement)
  | define t name body => some (.defined t.location name body.tokens.length)

/-- The operation that a move emits. -/
def Move.operation? : Move → Option Operation
  | emit op => some op
  | _ => none

/-- The lowering `s` makes a move and becomes another one. -/
inductive Step (o : Options) (s : Lowering) : Move → Lowering → Prop
  | emit {i : Pending} {rest : List Pending} {op : Operation} {a : Assembly}
      (hq : s.waiting = i :: rest) (hm : s.macros.invoked? i.token.word = none)
      (hop : i.token.operation = .ok op) (hne : op.opcode ≠ .macroWord)
      (hplace : s.assembly.place op = .ok a) :
      Step o s (.emit op) ⟨.ofList rest, s.macros, a, s.expansions⟩
  | expand {i : Pending} {rest : List Pending} {name : String} {body : MacroBody}
      (hq : s.waiting = i :: rest) (hm : s.macros.invoked? i.token.word = some (name, body))
      (hfree : name ∉ i.trail) (hlimit : Allows o s.expansions) :
      Step o s (.expand i name body)
        ⟨.ofList (merge o.placement rest (body.pending name i.trail)), s.macros, s.assembly,
          s.expansions + 1⟩
  | define {i j : Pending} {rest rest' : List Pending} {name : String} {body : MacroBody}
      (hq : s.waiting = i :: j :: rest) (hm : s.macros.invoked? i.token.word = none)
      (hkey : i.token.word = .identifier "macro") (hname : s.macros.checkName j.token = .ok name)
      (hcut : MacroBody.cut? rest = some (body, rest')) :
      Step o s (.define j.token name body)
        ⟨.ofList rest', s.macros.insert name body, s.assembly, s.expansions⟩

/-- The next token of `s` is the error `e`. -/
def Fails (o : Options) (s : Lowering) (e : CompileError) : Prop :=
  ∃ i queue, s.waiting = i :: queue.toList ∧ advance { s with queue } o i = .error e

section

variable {o : Options} {s s' : Lowering} {i : Pending} {queue : Queue Pending}
  {event : Option Event} {e : CompileError} {mv : Move}

/-- A step that succeeds is a move, and reports what the move reports. -/
theorem step_of_advance (hq : s.waiting = i :: queue.toList)
    (h : advance { s with queue } o i = .ok (s', event)) :
    ∃ mv, Step o s mv s' ∧ mv.event o.placement = event := by
  unfold advance at h
  split at h
  · next name body hinvoked =>
    unfold expand at h
    split at h
    · cases h
    · next hfree =>
      unfold substitute at h
      split at h
      · cases h
      · next hlimit =>
        cases h
        refine ⟨.expand i name body, ?_, rfl⟩
        simp only [enqueue_eq]
        exact .expand hq hinvoked hfree (allows_iff.2 hlimit)
  · next hinvoked =>
    split at h
    · cases h
    · next op hop =>
      split at h
      · next hkey =>
        have hword : i.token.word = .identifier "macro" :=
          Token.word_of_operation hop (by rw [hkey]; rfl)
        unfold define at h
        split at h
        · cases h
        · next j queue' hpop =>
          rw [Queue.pop?_eq_some_iff] at hpop
          split at h
          · cases h
          · next name hname =>
            split at h
            · cases h
            · next body rest hcut =>
              cases h
              refine ⟨.define j.token name body, ?_, rfl⟩
              exact .define (by rw [hq, hpop]) hinvoked hword hname hcut
      · next hkey =>
        unfold emit at h
        dsimp only at h
        split at h
        · cases h
        · next a hplace =>
          cases h
          have hstep : Step o s _ _ := .emit hq hinvoked hop hkey hplace
          rw [Queue.ofList_toList] at hstep
          exact ⟨.emit op, hstep, rfl⟩

/-- Every move is a step that succeeds. -/
theorem Step.advance (h : Step o s mv s') :
    ∃ i queue, s.waiting = i :: Queue.toList queue ∧
      advance { s with queue } o i = .ok (s', mv.event o.placement) := by
  cases h with
  | @emit i rest op a hq hm hop hne hplace =>
    refine ⟨i, .ofList rest, hq, ?_⟩
    simp only [Lowering.advance, hm, hop, if_neg hne, Lowering.emit, hplace, Move.event]
  | @expand i rest name body hq hm hfree hlimit =>
    refine ⟨i, .ofList rest, hq, ?_⟩
    simp only [Lowering.advance, hm, Lowering.expand, if_neg hfree, substitute,
      allows_iff.1 hlimit, enqueue_eq, Queue.toList_ofList, Move.event]
  | @define i j rest rest' name body hq hm hkey hname hcut =>
    have hop : i.token.operation = .ok (.plain .macroWord i.token.location) :=
      Token.operation_of_word hkey rfl
    have hpop : (Queue.ofList (j :: rest)).pop? = some (j, .ofList rest) :=
      Queue.pop?_eq_some_iff.2 rfl
    refine ⟨i, .ofList (j :: rest), hq, ?_⟩
    simp only [Lowering.advance, hm, hop, Operation.plain, if_true, Lowering.define, hpop, hname,
      Queue.toList_ofList, hcut, Move.event]

/-- A lowering has one step at most. -/
theorem Step.unique {mv' : Move} {s'' : Lowering} (h : Step o s mv s') (h' : Step o s mv' s'') :
    s' = s'' := by
  obtain ⟨i, queue, hq, hadv⟩ := h.advance
  obtain ⟨i', queue', hq', hadv'⟩ := h'.advance
  rw [hq] at hq'
  obtain ⟨rfl, hqueue⟩ := List.cons.inj hq'
  obtain rfl := Queue.ext hqueue
  have heq := hadv.symm.trans hadv'
  simp only [Except.ok.injEq, Prod.mk.injEq] at heq
  exact heq.1

/-- A token that waits after a step has waited before it, or the step has expanded a macro of the
table, which the trail of the invocation did not have, and the token is in its body. -/
theorem Step.mem_waiting (h : Step o s mv s') {j : Pending} (hj : j ∈ s'.waiting) :
    j ∈ s.waiting ∨ ∃ i ∈ s.waiting, ∃ name body,
      s.macros.invoked? i.token.word = some (name, body) ∧ name ∉ i.trail ∧
        j ∈ body.pending name i.trail := by
  cases h with
  | emit hq =>
    rw [hq]
    exact .inl (List.mem_cons_of_mem _ hj)
  | @expand i rest name body hq hm hfree hlimit =>
    rw [hq]
    rcases mem_merge.1 hj with hrest | hbody
    · exact .inl (List.mem_cons_of_mem i hrest)
    · exact .inr ⟨i, List.mem_cons_self, name, body, hm, hfree, hbody⟩
  | define hq hm hkey hname hcut =>
    obtain ⟨inner, close, rfl, -, -⟩ := MacroBody.eq_of_cut? hcut
    rw [hq]
    simp only [List.mem_cons, List.mem_append]
    exact .inl (.inr (.inr (.inr (.inr hj))))

/-- A word that is neither a macro nor builtin is an error. -/
theorem fails_of_undefined {rest : List Pending} {word : String} (hq : s.waiting = i :: rest)
    (hm : s.macros.invoked? i.token.word = none) (hword : i.token.word = .identifier word)
    (hop : Opcode.ofWord? word = none) :
    Fails o s (.undefinedWord i.token.location word) := by
  refine ⟨i, .ofList rest, hq, ?_⟩
  simp only [advance, hm, Token.operation_of_not_builtin hword hop]

end

/-! ## Paths -/

/-- The lowering `s` becomes another one by a list of moves. -/
inductive Path (o : Options) : Lowering → List Move → Lowering → Prop
  | nil (s : Lowering) : Path o s [] s
  | cons {s s' s'' : Lowering} {mv : Move} {mvs : List Move} :
      Step o s mv s' → Path o s' mvs s'' → Path o s (mv :: mvs) s''

/-- The events of a list of moves. -/
def events (o : Options) (mvs : List Move) : List Event :=
  mvs.filterMap (·.event o.placement)

/-- The operations that a list of moves emits. -/
def emitted (mvs : List Move) : List Operation :=
  mvs.filterMap (·.operation?)

section

variable {o : Options} {s s' s'' : Lowering} {mvs mvs' : List Move} {mv : Move}

theorem Path.append (h : Path o s mvs s') (h' : Path o s' mvs' s'') :
    Path o s (mvs ++ mvs') s'' := by
  induction h with
  | nil => exact h'
  | cons hstep _ ih => exact .cons hstep (ih h')

theorem Path.single (h : Step o s mv s') : Path o s [mv] s' :=
  .cons h (.nil s')

/-- What every step keeps is kept along every path. -/
theorem Path.invariant {I : Lowering → Prop} (hstep : ∀ s mv s', I s → Step o s mv s' → I s')
    (h : Path o s mvs s') (hs : I s) : I s' := by
  induction h with
  | nil => exact hs
  | cons hst _ ih => exact ih (hstep _ _ _ hs hst)

/-- A lowering goes on from the end of a path that it has made. -/
theorem run_of_path (h : Path o s mvs s') (log : Array Event) :
    run o s log = run o s' (log ++ (events o mvs).toArray) := by
  induction h generalizing log with
  | nil => simp [events]
  | @cons s _ _ mv _ hstep _ ih =>
    obtain ⟨i, queue, hq, hadv⟩ := hstep.advance
    rw [run_of_advance_ok hq hadv, ih]
    congr 1
    unfold events
    cases hev : mv.event o.placement <;> simp [hev]

end

/-- The state in which a lowering stops: nothing is waiting, or the next token is an error. -/
def last (o : Options) (s : Lowering) : Lowering :=
  match _hq : s.queue.pop? with
  | none => s
  | some (i, queue) =>
    match _h : advance { s with queue } o i with
    | .error _ => s
    | .ok (s', _) => last o s'
termination_by s.measure
decreasing_by exact advance_lt (Queue.pop?_eq_some_iff.1 _hq) _h

/-- The table of a lowering of `ts` when it stops. -/
def finalMacros (o : Options) (ts : List Token) : MacroTable MacroBody :=
  (last o (start ts)).macros

/-- The number of expansions in a lowering of `ts`. -/
def expansionCount (o : Options) (ts : List Token) : Nat :=
  (last o (start ts)).expansions

section

variable {o : Options} {s s' : Lowering} {mvs : List Move} {e : CompileError}
  {log : Array Event}

theorem run_of_fails (h : Fails o s e) : run o s log = ⟨log, .error e⟩ := by
  obtain ⟨i, queue, hq, hadv⟩ := h
  exact run_of_advance_error hq hadv

/-- **A lowering is a path to its last state**, and either it is finished there or it fails
there. -/
theorem exists_path_last (o : Options) (s : Lowering) :
    ∃ mvs, Path o s mvs (last o s) ∧ ((last o s).waiting = [] ∨ ∃ e, Fails o (last o s) e) := by
  fun_induction last o s with
  | case1 s hq => exact ⟨[], .nil s, .inl (Queue.pop?_eq_none_iff.1 hq)⟩
  | case2 s i queue hq e h =>
    exact ⟨[], .nil s, .inr ⟨e, i, queue, Queue.pop?_eq_some_iff.1 hq, h⟩⟩
  | case3 s i queue hq s' event h ih =>
    obtain ⟨mvs, hpath, hend⟩ := ih
    obtain ⟨mv, hstep, -⟩ := step_of_advance (Queue.pop?_eq_some_iff.1 hq) h
    exact ⟨mv :: mvs, .cons hstep hpath, hend⟩

theorem last_of_step {mv : Move} (h : Step o s mv s') : last o s = last o s' := by
  obtain ⟨i, queue, hq, hadv⟩ := h.advance
  have hpop : s.queue.pop? = some (i, queue) := Queue.pop?_eq_some_iff.2 hq
  rw [last]
  split
  · next hnone => cases hpop.symm.trans hnone
  · next hsome =>
    cases hpop.symm.trans hsome
    split
    · next herr => cases hadv.symm.trans herr
    · next hok => cases hadv.symm.trans hok; rfl

theorem last_of_path (h : Path o s mvs s') : last o s = last o s' := by
  induction h with
  | nil => rfl
  | cons hstep _ ih => exact (last_of_step hstep).trans ih

theorem last_of_waiting_nil (h : s.waiting = []) : last o s = s := by
  have hpop : s.queue.pop? = none := Queue.pop?_eq_none_iff.2 h
  rw [last]
  split
  · rfl
  · next hsome => cases hpop.symm.trans hsome

theorem last_of_fails (h : Fails o s e) : last o s = s := by
  obtain ⟨i, queue, hq, hadv⟩ := h
  have hpop : s.queue.pop? = some (i, queue) := Queue.pop?_eq_some_iff.2 hq
  rw [last]
  split
  · rfl
  · next hsome =>
    cases hpop.symm.trans hsome
    split
    · rfl
    · next hok => cases hadv.symm.trans hok

/-- A path to a state that nothing follows leads to the last state. -/
theorem last_eq_of_path (h : Path o s mvs s') (hend : s'.waiting = [] ∨ ∃ e, Fails o s' e) :
    last o s = s' := by
  rw [last_of_path h]
  rcases hend with hend | ⟨e, he⟩
  · exact last_of_waiting_nil hend
  · exact last_of_fails he

/-- A lowering that returns a program has used up all tokens and closed all blocks. -/
theorem path_of_run_ok {p : Program} (h : (run o s log).result = .ok p) :
    ∃ mvs s', Path o s mvs s' ∧ s'.waiting = [] ∧ s'.assembly.finish = .ok p := by
  obtain ⟨mvs, hpath, hend⟩ := exists_path_last o s
  refine ⟨mvs, last o s, hpath, ?_⟩
  rw [run_of_path hpath] at h
  rcases hend with hend | ⟨e, hfails⟩
  · rw [run_of_queue_nil hend] at h
    unfold finish at h
    split at h
    · cases h
    · next hfinish =>
      cases h
      exact ⟨hend, hfinish⟩
  · rw [run_of_fails hfails] at h
    cases h

/-- A lowering that ends with an error has failed at a token, or a block is still open when all
tokens are used up. -/
theorem path_of_run_error (h : (run o s log).result = .error e) :
    ∃ mvs, Path o s mvs (last o s) ∧
      (Fails o (last o s) e ∨
        (last o s).waiting = [] ∧ (last o s).assembly.finish = .error e) := by
  obtain ⟨mvs, hpath, hend⟩ := exists_path_last o s
  refine ⟨mvs, hpath, ?_⟩
  rw [run_of_path hpath] at h
  rcases hend with hend | ⟨e', hfails⟩
  · rw [run_of_queue_nil hend] at h
    unfold finish at h
    split at h
    · next hfinish => cases h; exact .inr ⟨hend, hfinish⟩
    · cases h
  · rw [run_of_fails hfails] at h
    cases h
    exact .inl hfails

theorem run_ok_of_path {p : Program} (hpath : Path o s mvs s') (hend : s'.waiting = [])
    (hfinish : s'.assembly.finish = .ok p) : (run o s log).result = .ok p := by
  rw [run_of_path hpath, run_of_queue_nil hend]
  simp only [finish, hfinish]

end

/-- The limit has allowed every expansion of a path. -/
theorem Path.allows (h : Path o s mvs s') (hs : ∀ k < s.expansions, Allows o k) :
    ∀ k < s'.expansions, Allows o k := by
  refine h.invariant (I := fun s => ∀ k < s.expansions, Allows o k) ?_ hs
  intro s mv s' hs hstep
  cases hstep with
  | emit => exact hs
  | expand _ _ _ hlimit =>
    intro k hk
    rcases Nat.lt_succ_iff_lt_or_eq.1 hk with hk | rfl
    · exact hs k hk
    · exact hlimit
  | define => exact hs

/-! ## The operations of a path -/

section

variable {o : Options} {s s' : Lowering} {mvs : List Move} {mv : Move}

theorem Step.placeAll (h : Step o s mv s') :
    s.assembly.placeAll mv.operation?.toList = .ok s'.assembly := by
  cases h with
  | emit _ _ _ _ hplace => exact Assembly.placeAll_cons hplace []
  | expand => rfl
  | define => rfl

/-- The assembly at the end of a path is made of the operations that the path emits. -/
theorem Path.placeAll (h : Path o s mvs s') :
    s.assembly.placeAll (emitted mvs) = .ok s'.assembly := by
  induction h with
  | nil => rfl
  | @cons s _ _ mv mvs hstep _ ih =>
    have hcons : emitted (mv :: mvs) = mv.operation?.toList ++ emitted mvs := by
      unfold emitted
      cases hop : mv.operation? <;> simp [hop]
    rw [hcons, Assembly.placeAll_append hstep.placeAll, ih]

/-- What a path emits are operations of tokens, none of them the start of a definition. -/
theorem Path.of_mem_emitted (h : Path o s mvs s') {op : Operation} (hop : op ∈ emitted mvs) :
    (∃ t : Token, t.operation = .ok op) ∧ op.opcode ≠ .macroWord := by
  obtain ⟨mv, hmv, hmvop⟩ := List.mem_filterMap.1 hop
  induction h with
  | nil => cases hmv
  | @cons _ _ _ mv' _ hstep _ ih =>
    rcases List.mem_cons.1 hmv with rfl | hmv
    · cases hstep with
      | emit _ _ htok hne _ => cases hmvop; exact ⟨⟨_, htok⟩, hne⟩
      | expand => cases hmvop
      | define => cases hmvop
    · exact ih (List.mem_filterMap.2 ⟨mv, hmv, hmvop⟩) hmv

/-- A program under construction holds what has been emitted, but for the jumps. -/
theorem Path.unlinked (h : Path o s mvs s') :
    s'.assembly.program.unlinked = s.assembly.program.unlinked ++ emitted mvs := by
  rw [Assembly.placeAll_unlinked h.placeAll]
  congr 1
  refine (List.map_congr_left fun op hop => ?_).trans (List.map_id _)
  obtain ⟨⟨t, ht⟩, -⟩ := h.of_mem_emitted hop
  exact Operation.unlink_of_jump (Token.operation_eq_ok ht).1

end

/-! ## The table of a path -/

section

variable {o : Options} {s s' : Lowering} {mvs : List Move} {mv : Move}

theorem Path.extends (h : Path o s mvs s') : s.macros.Extends s'.macros := by
  induction h with
  | nil => exact .refl _
  | @cons s _ _ _ _ hstep _ ih =>
    cases hstep with
    | emit => exact ih
    | expand => exact ih
    | @define _ _ _ _ name body => exact (s.macros.extends_insert name body).trans ih

theorem Path.noBuiltin (h : Path o s mvs s') (hs : s.macros.NoBuiltin) :
    s'.macros.NoBuiltin := by
  refine h.invariant (I := fun s => s.macros.NoBuiltin) ?_ hs
  intro s mv s' hs hstep
  cases hstep with
  | emit => exact hs
  | expand => exact hs
  | define _ _ _ hname _ => exact hs.insert hname

end

end Lowering

end StackLang
