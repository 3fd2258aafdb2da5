import StackLang.Proofs.Lowering.Path

/-!
# Why a token is an error

A lowering fails at the token that waits in front. `Fault` lists the reasons, each with what it
needs of the state and with the error that is reported, as `Step` lists the moves.

**Theorem (`fails_iff`).** A lowering fails with an error exactly if there is such a reason for it.

Every reason has a place in the source (`Fault.exists_location`), and so has every error that ends
a lowering.
-/

namespace StackLang.Lowering

/-- The lowering `s` cannot go on, which is reported as an error. -/
inductive Fault (o : Options) (s : Lowering) : CompileError → Prop
  /-- the token came from an expansion of the macro that it invokes -/
  | recursive {i : Pending} {rest : List Pending} {name : String} {body : MacroBody}
      (hq : s.waiting = i :: rest) (hm : s.macros.invoked? i.token.word = some (name, body))
      (hmem : name ∈ i.trail) : Fault o s (.recursiveMacro i.token.location name)
  /-- one more expansion would exceed the limit -/
  | limit {i : Pending} {rest : List Pending} {name : String} {body : MacroBody} {limit : Nat}
      (hq : s.waiting = i :: rest) (hm : s.macros.invoked? i.token.word = some (name, body))
      (hfree : name ∉ i.trail) (hlimit : o.limit = some limit) (hcount : limit ≤ s.expansions) :
      Fault o s (.expansionLimit i.token.location name limit)
  /-- the word is neither a macro nor builtin -/
  | operation {i : Pending} {rest : List Pending} {e : CompileError}
      (hq : s.waiting = i :: rest) (hm : s.macros.invoked? i.token.word = none)
      (hop : i.token.operation = .error e) : Fault o s e
  /-- the control word does not fit the open blocks -/
  | place {i : Pending} {rest : List Pending} {op : Operation} {e : CompileError}
      (hq : s.waiting = i :: rest) (hm : s.macros.invoked? i.token.word = none)
      (hop : i.token.operation = .ok op) (hne : op.opcode ≠ .macroWord)
      (hplace : s.assembly.place op = .error e) : Fault o s e
  /-- nothing follows the keyword of a definition -/
  | noName {i : Pending} (hq : s.waiting = [i]) (hm : s.macros.invoked? i.token.word = none)
      (hkey : i.token.word = .identifier "macro") :
      Fault o s (.malformedMacro i.token.location "end of input")
  /-- the name of a definition is refused -/
  | name {i j : Pending} {rest : List Pending} {e : CompileError} (hq : s.waiting = i :: j :: rest)
      (hm : s.macros.invoked? i.token.word = none) (hkey : i.token.word = .identifier "macro")
      (hname : s.macros.checkName j.token = .error e) : Fault o s e
  /-- no `end` follows the name of a definition -/
  | unfinished {i j : Pending} {rest : List Pending} {name : String}
      (hq : s.waiting = i :: j :: rest) (hm : s.macros.invoked? i.token.word = none)
      (hkey : i.token.word = .identifier "macro") (hname : s.macros.checkName j.token = .ok name)
      (hcut : MacroBody.cut? rest = none) :
      Fault o s (.incompleteMacro j.token.location name)

variable {o : Options} {s : Lowering} {e : CompileError} {i : Pending} {queue : Queue Pending}

/-! ## Every failure has a reason -/

theorem fault_of_expand {name : String} {body : MacroBody} (hq : s.waiting = i :: queue.toList)
    (hm : s.macros.invoked? i.token.word = some (name, body))
    (h : expand { s with queue } o i name body = .error e) : Fault o s e := by
  unfold expand at h
  split at h
  · next hmem => cases h; exact .recursive hq hm hmem
  · next hfree =>
    unfold substitute at h
    split at h
    · next limit hlimit =>
      cases h
      obtain ⟨hlimit, hcount⟩ := Option.filter_eq_some_iff.1 hlimit
      exact .limit hq hm hfree hlimit (Nat.le_of_lt_succ (of_decide_eq_true hcount))
    · cases h

theorem fault_of_define (hq : s.waiting = i :: queue.toList)
    (hm : s.macros.invoked? i.token.word = none) (hkey : i.token.word = .identifier "macro")
    (h : define { s with queue } i.token.location = .error e) : Fault o s e := by
  unfold define at h
  split at h
  · next hpop =>
    cases h
    exact .noName (by rw [hq, Queue.pop?_eq_none_iff.1 hpop]) hm hkey
  · next j queue' hpop =>
    rw [Queue.pop?_eq_some_iff] at hpop
    rw [hpop] at hq
    split at h
    · next hname => cases h; exact .name hq hm hkey hname
    · next name hname =>
      split at h
      · next hcut => cases h; exact .unfinished hq hm hkey hname hcut
      · cases h

theorem fault_of_advance (hq : s.waiting = i :: queue.toList)
    (h : advance { s with queue } o i = .error e) : Fault o s e := by
  unfold advance at h
  split at h
  · next hm => exact fault_of_expand hq hm h
  · next hm =>
    split at h
    · next hop => cases h; exact .operation hq hm hop
    · next op hop =>
      split at h
      · next hkey => exact fault_of_define hq hm (Token.word_of_operation hop (by rw [hkey]; rfl)) h
      · next hne =>
        unfold emit at h
        dsimp only at h
        split at h
        · next hplace => cases h; exact .place hq hm hop hne hplace
        · cases h

/-! ## Every reason is a failure -/

/-- The keyword of a definition leads to the definition. -/
theorem advance_of_keyword (hm : s.macros.invoked? i.token.word = none)
    (hkey : i.token.word = .identifier "macro") :
    advance { s with queue } o i = define { s with queue } i.token.location := by
  have hop := Token.operation_of_word hkey (rfl : _ = some Opcode.macroWord)
  simp only [advance, hm, hop, Operation.plain, if_true]

theorem Fault.exists_advance (h : Fault o s e) :
    ∃ i queue, s.waiting = i :: Queue.toList queue ∧ advance { s with queue } o i = .error e := by
  cases h with
  | @recursive i rest name body hq hm hmem =>
    refine ⟨i, .ofList rest, hq, ?_⟩
    simp only [advance, hm, expand, if_pos hmem]
  | @limit i rest name body limit hq hm hfree hlimit hcount =>
    refine ⟨i, .ofList rest, hq, ?_⟩
    have hfilter : o.limit.filter (· < s.expansions + 1) = some limit := by
      rw [hlimit, Option.filter_some, if_pos (decide_eq_true (Nat.lt_succ_of_le hcount))]
    simp only [advance, hm, expand, if_neg hfree, substitute, hfilter]
  | @operation i rest e hq hm hop =>
    refine ⟨i, .ofList rest, hq, ?_⟩
    simp only [advance, hm, hop]
  | @place i rest op e hq hm hop hne hplace =>
    refine ⟨i, .ofList rest, hq, ?_⟩
    simp only [advance, hm, hop, if_neg hne, emit, hplace]
  | @noName i hq hm hkey =>
    have hpop : (Queue.ofList ([] : List Pending)).pop? = none := Queue.pop?_eq_none_iff.2 rfl
    refine ⟨i, .ofList [], hq, (advance_of_keyword hm hkey).trans ?_⟩
    simp only [define, hpop]
  | @name i j rest e hq hm hkey hname =>
    have hpop : (Queue.ofList (j :: rest)).pop? = some (j, .ofList rest) :=
      Queue.pop?_eq_some_iff.2 rfl
    refine ⟨i, .ofList (j :: rest), hq, (advance_of_keyword hm hkey).trans ?_⟩
    simp only [define, hpop, hname]
  | @unfinished i j rest name hq hm hkey hname hcut =>
    have hpop : (Queue.ofList (j :: rest)).pop? = some (j, .ofList rest) :=
      Queue.pop?_eq_some_iff.2 rfl
    refine ⟨i, .ofList (j :: rest), hq, (advance_of_keyword hm hkey).trans ?_⟩
    simp only [define, hpop, hname, Queue.toList_ofList, hcut]

/-- **A lowering fails exactly if there is a reason.** -/
theorem fails_iff : Fails o s e ↔ Fault o s e :=
  ⟨fun ⟨_, _, hq, h⟩ => fault_of_advance hq h, Fault.exists_advance⟩

/-! ## Where errors are -/

/-- Every failure is reported at a token that waits. -/
theorem Fault.exists_location (h : Fault o s e) :
    ∃ i ∈ s.waiting, e.location? = some i.token.location := by
  cases h with
  | recursive hq => exact ⟨_, hq ▸ List.mem_cons_self, rfl⟩
  | limit hq => exact ⟨_, hq ▸ List.mem_cons_self, rfl⟩
  | operation hq _ hop => exact ⟨_, hq ▸ List.mem_cons_self, Token.location?_of_error hop⟩
  | place hq _ hop _ hplace =>
    refine ⟨_, hq ▸ List.mem_cons_self, ?_⟩
    rw [(Assembly.place_eq_error_iff.1 hplace).location?, (Token.operation_eq_ok hop).2]
  | noName hq => exact ⟨_, hq ▸ List.mem_cons_self, rfl⟩
  | name hq _ _ hname =>
    exact ⟨_, hq ▸ List.mem_cons_of_mem _ List.mem_cons_self, MacroTable.location?_of_error hname⟩
  | unfinished hq => exact ⟨_, hq ▸ List.mem_cons_of_mem _ List.mem_cons_self, rfl⟩

/-- Whatever error ends a lowering, it has a place. -/
theorem exists_location_of_run_error {log : Array Event} (h : (run o s log).result = .error e) :
    ∃ location, e.location? = some location := by
  obtain ⟨mvs, -, hfails | ⟨-, hfinish⟩⟩ := path_of_run_error h
  · obtain ⟨i, -, hi⟩ := (fails_iff.1 hfails).exists_location
    exact ⟨_, hi⟩
  · obtain ⟨block, outer, -, rfl⟩ := Assembly.finish_eq_error_iff.1 hfinish
    exact ⟨_, rfl⟩

end StackLang.Lowering
