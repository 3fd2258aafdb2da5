import StackLang.Proofs.Lowering.Path

/-!
# Lowering without the test for recursion

`advanceUnchecked` is the step of a lowering in which a macro is expanded even inside its own
expansion. Repeating it need not come to an end, so its outcome is a relation, `Ends`, between a
state and a result. For the step with the test the relation is the running function
(`ends_advance_iff`).

**Theorem (`Ends.of_path`).** A lowering without the test goes along every path of a lowering with
it, unless it exceeds its limit.

**Theorem (`exists_ends_of_limit`).** With a limit it always ends: between two expansions the
number of waiting tokens falls.
-/

namespace StackLang.Lowering

/-- Deal with the token `i` as `advance` does, but for the test for recursion. -/
def advanceUnchecked (s : Lowering) (o : Options) (i : Pending) :
    Except CompileError (Lowering × Option Event) :=
  match s.macros.invoked? i.token.word with
  | some (name, body) => s.substitute o i name body
  | none => s.advance o i

/-- Repeating `step` until nothing is waiting, or up to the first error, has the result `r`. -/
inductive Ends (step : Lowering → Pending → Except CompileError (Lowering × Option Event)) :
    Lowering → Except CompileError Program → Prop
  | finish {s : Lowering} (hq : s.waiting = []) : Ends step s s.assembly.finish
  | fail {s : Lowering} {i : Pending} {queue : Queue Pending} {e : CompileError}
      (hq : s.waiting = i :: queue.toList) (h : step { s with queue } i = .error e) :
      Ends step s (.error e)
  | step {s s' : Lowering} {i : Pending} {queue : Queue Pending} {event : Option Event}
      {r : Except CompileError Program} (hq : s.waiting = i :: queue.toList)
      (h : step { s with queue } i = .ok (s', event)) (hrest : Ends step s' r) : Ends step s r

/-- The lowering `s` ends with the result `r` if macros are not tested for recursion. -/
def EndsUnchecked (o : Options) (s : Lowering) (r : Except CompileError Program) : Prop :=
  Ends (fun s i => s.advanceUnchecked o i) s r

variable {o o' : Options} {s s' : Lowering} {mvs : List Move} {p : Program}
  {r : Except CompileError Program}

theorem Ends.unique {step : Lowering → Pending → Except CompileError (Lowering × Option Event)}
    {r' : Except CompileError Program} (h : Ends step s r) (h' : Ends step s r') : r = r' := by
  have hhead : ∀ {s : Lowering} {i j : Pending} {queue queue' : Queue Pending},
      s.waiting = i :: queue.toList → s.waiting = j :: queue'.toList → i = j ∧ queue = queue' := by
    intro s i j queue queue' hq hq'
    obtain ⟨hi, hqueue⟩ := List.cons.inj (hq.symm.trans hq')
    exact ⟨hi, Queue.ext hqueue⟩
  induction h with
  | finish hq =>
    cases h' with
    | finish => rfl
    | fail hq' | step hq' => cases hq.symm.trans hq'
  | fail hq h =>
    cases h' with
    | finish hq' => cases hq.symm.trans hq'
    | fail hq' h' =>
      obtain ⟨rfl, rfl⟩ := hhead hq hq'
      cases h.symm.trans h'
      rfl
    | step hq' h' =>
      obtain ⟨rfl, rfl⟩ := hhead hq hq'
      cases h.symm.trans h'
  | step hq h _ ih =>
    cases h' with
    | finish hq' => cases hq.symm.trans hq'
    | fail hq' h' =>
      obtain ⟨rfl, rfl⟩ := hhead hq hq'
      cases h.symm.trans h'
    | step hq' h' hrest' =>
      obtain ⟨rfl, rfl⟩ := hhead hq hq'
      cases h.symm.trans h'
      exact ih hrest'

/-! ## The step with the test -/

theorem ends_of_run (o : Options) (s : Lowering) (log : Array Event) :
    Ends (fun s i => s.advance o i) s (run o s log).result := by
  fun_induction run o s log with
  | case1 s log hq =>
    have hresult : (s.finish log).result = s.assembly.finish := by
      unfold finish
      split <;> rename_i hfinish <;> rw [hfinish]
    rw [hresult]
    exact .finish (Queue.pop?_eq_none_iff.1 hq)
  | case2 s log i queue hq e h => exact .fail (Queue.pop?_eq_some_iff.1 hq) h
  | case3 s log i queue hq s' event h ih => exact .step (Queue.pop?_eq_some_iff.1 hq) h ih

/-- **With the test, the relation is the running function.** -/
theorem ends_advance_iff {log : Array Event} :
    Ends (fun s i => s.advance o i) s r ↔ (run o s log).result = r :=
  ⟨fun h => (ends_of_run o s log).unique h, fun h => h ▸ ends_of_run o s log⟩

/-! ## The step without the test -/

theorem advanceUnchecked_of_none {i : Pending} {queue : Queue Pending}
    (h : s.macros.invoked? i.token.word = none) :
    advanceUnchecked { s with queue } o i = advance { s with queue } o i := by
  simp only [advanceUnchecked, h]

theorem advanceUnchecked_of_some {i : Pending} {name : String} {body : MacroBody}
    (queue : Queue Pending) (hm : s.macros.invoked? i.token.word = some (name, body))
    (hlimit : Allows o s.expansions) :
    ∃ event, advanceUnchecked { s with queue } o i =
      .ok (⟨.ofList (merge o.placement queue.toList (body.pending name i.trail)), s.macros,
        s.assembly, s.expansions + 1⟩, event) := by
  refine ⟨some (.expanding i.token.location name body.tokens.length o.placement), ?_⟩
  simp only [advanceUnchecked, hm, substitute, allows_iff.1 hlimit, enqueue_eq]

/-- Without the test a step is a move of the lowering that expands nothing, or an expansion that
the limit allows. -/
theorem cases_of_advanceUnchecked {i : Pending} {queue : Queue Pending} {event : Option Event}
    (hq : s.waiting = i :: queue.toList)
    (h : advanceUnchecked { s with queue } o i = .ok (s', event)) :
    (∃ mv, Step o s mv s' ∧ s.macros.invoked? i.token.word = none) ∨
    ∃ name body, s.macros.invoked? i.token.word = some (name, body) ∧ Allows o s.expansions ∧
      s' = ⟨.ofList (merge o.placement queue.toList (body.pending name i.trail)), s.macros,
        s.assembly, s.expansions + 1⟩ := by
  cases hm : s.macros.invoked? i.token.word with
  | none =>
    rw [advanceUnchecked_of_none hm] at h
    obtain ⟨mv, hstep, -⟩ := step_of_advance hq h
    exact .inl ⟨mv, hstep, rfl⟩
  | some e =>
    obtain ⟨name, body⟩ := e
    by_cases hlimit : Allows o s.expansions
    · obtain ⟨event', hadv⟩ := advanceUnchecked_of_some queue hm hlimit
      cases hadv.symm.trans h
      exact .inr ⟨name, body, rfl, hlimit, rfl⟩
    · rw [allows_iff] at hlimit
      simp only [advanceUnchecked, hm, substitute] at h
      split at h
      · cases h
      · next hnone => exact absurd hnone hlimit

/-- Without the test every expansion that the limit allows is made. -/
theorem EndsUnchecked.of_expand {i : Pending} {rest : List Pending} {name : String}
    {body : MacroBody} (hq : s.waiting = i :: rest)
    (hm : s.macros.invoked? i.token.word = some (name, body)) (hlimit : Allows o s.expansions)
    (hrest : EndsUnchecked o ⟨.ofList (merge o.placement rest (body.pending name i.trail)),
      s.macros, s.assembly, s.expansions + 1⟩ r) : EndsUnchecked o s r := by
  obtain ⟨event, hadv⟩ := advanceUnchecked_of_some (.ofList rest) hm hlimit
  exact .step hq hadv hrest

/-- Every step is one of the lowering without the test. -/
theorem EndsUnchecked.of_step {mv : Move} (h : Step o s mv s') (hrest : EndsUnchecked o s' r) :
    EndsUnchecked o s r := by
  obtain ⟨i, queue, hq, hadv⟩ := id h.advance
  cases h with
  | emit hq' hm =>
    obtain ⟨rfl, -⟩ := List.cons.inj (hq.symm.trans hq')
    exact .step hq ((advanceUnchecked_of_none hm).trans hadv) hrest
  | expand hq' hm hfree hlimit => exact .of_expand hq' hm hlimit hrest
  | define hq' hm =>
    obtain ⟨rfl, -⟩ := List.cons.inj (hq.symm.trans hq')
    exact .step hq ((advanceUnchecked_of_none hm).trans hadv) hrest

/-- A lowering without the test that returns a program has gone along every path from its start
of a lowering with the test. -/
theorem EndsUnchecked.of_path (ho : o.placement = o'.placement) (hpath : Path o s mvs s')
    (h : EndsUnchecked o' s (.ok p)) : EndsUnchecked o' s' (.ok p) := by
  induction hpath with
  | nil => exact h
  | @cons s s₁ _ mv _ hstep _ ih =>
    refine ih ?_
    generalize hr : (Except.ok p : Except CompileError Program) = r at h
    cases h with
    | finish hq =>
      obtain ⟨i, queue, hq', -⟩ := hstep.advance
      cases hq.symm.trans hq'
    | fail => cases hr
    | @step _ s₂ i queue event _ hq h hrest =>
      suffices s₁ = s₂ by rwa [this]
      rcases cases_of_advanceUnchecked hq h with ⟨mv', hstep', hnone⟩ | ⟨name, body, hsome, -, rfl⟩
      · cases hstep with
        | emit hq' hm hop hne hplace => exact (Step.emit hq' hm hop hne hplace).unique hstep'
        | expand hq' hm => cases hq.symm.trans hq'; cases hnone.symm.trans hm
        | define hq' hm hkey hname hcut => exact (Step.define hq' hm hkey hname hcut).unique hstep'
      · cases hstep with
        | emit hq' hm => cases hq.symm.trans hq'; cases hsome.symm.trans hm
        | expand hq' hm => cases hq.symm.trans hq'; cases hsome.symm.trans hm; rw [ho]
        | define hq' hm =>
          obtain ⟨rfl, -⟩ := List.cons.inj (hq.symm.trans hq')
          cases hsome.symm.trans hm

/-- **No program.** If a state has a property that every step without the test keeps, and that
leaves a token waiting, then no program comes of it. -/
theorem EndsUnchecked.not_ok {I : Lowering → Prop} (hwaiting : ∀ s, I s → s.waiting ≠ [])
    (hstep : ∀ s i queue s' event, I s → s.waiting = i :: Queue.toList queue →
      advanceUnchecked { s with queue } o i = .ok (s', event) → I s') (hs : I s) :
    ¬ EndsUnchecked o s (.ok p) := by
  intro h
  generalize hr : (Except.ok p : Except CompileError Program) = r at h
  induction h with
  | finish hq => exact hwaiting _ hs hq
  | fail => cases hr
  | step hq h _ ih => exact ih (hstep _ _ _ _ _ hs hq h) hr

/-! ## Limits -/

/-- A step without the test is one of the expansions that the limit allows, or it leaves fewer
tokens waiting. -/
theorem lt_of_advanceUnchecked {n : Nat} (hlimit : o.limit = some n) {i : Pending}
    {queue : Queue Pending} {event : Option Event} (hq : s.waiting = i :: queue.toList)
    (h : advanceUnchecked { s with queue } o i = .ok (s', event)) :
    Prod.Lex (· < ·) (· < ·) (n - s'.expansions, s'.waiting.length)
      (n - s.expansions, s.waiting.length) := by
  refine Prod.lex_def.2 ?_
  rcases cases_of_advanceUnchecked hq h with ⟨mv, hstep, hnone⟩ | ⟨name, body, -, hallows, rfl⟩
  · right
    cases hstep with
    | emit hq' =>
      refine ⟨rfl, ?_⟩
      simp [hq']
    | expand hq' hm => cases hq.symm.trans hq'; cases hnone.symm.trans hm
    | define hq' _ _ _ hcut =>
      obtain ⟨inner, close, rfl, -, -⟩ := MacroBody.eq_of_cut? hcut
      refine ⟨rfl, ?_⟩
      simp [hq']
      omega
  · left
    have := hallows n hlimit
    simp only
    omega

/-- **With a limit, a lowering without the test comes to an end.** -/
theorem exists_ends_of_limit {n : Nat} (hlimit : o.limit = some n) (s : Lowering) :
    ∃ r, EndsUnchecked o s r := by
  match hpop : s.queue.pop? with
  | none => exact ⟨_, .finish (Queue.pop?_eq_none_iff.1 hpop)⟩
  | some (i, queue) =>
    have hq : s.waiting = i :: queue.toList := Queue.pop?_eq_some_iff.1 hpop
    match hadv : advanceUnchecked { s with queue } o i with
    | .error e => exact ⟨.error e, .fail hq hadv⟩
    | .ok (s', event) =>
      obtain ⟨r, hr⟩ := exists_ends_of_limit hlimit s'
      exact ⟨r, .step hq hadv hr⟩
termination_by (n - s.expansions, s.waiting.length)
decreasing_by exact lt_of_advanceUnchecked hlimit hq hadv

end StackLang.Lowering
