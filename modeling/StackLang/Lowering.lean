import StackLang.Lowering.Measure

/-!
# Lowering tokens to a program

Lowering repeats the step until the queue is empty, and then asks that every block be closed. An
error ends it at once. It always ends, because every step lowers the measure of the state.
-/

namespace StackLang

/-- A result together with the events on the way to it. -/
structure Outcome (α : Type) where
  log : Array Event
  result : Except CompileError α

namespace Lowering

/-- The outcome of a lowering whose queue is empty. -/
def finish (s : Lowering) (log : Array Event) : Outcome Program :=
  match s.assembly.finish with
  | .error e => ⟨log, .error e⟩
  | .ok p => ⟨log.push (s.summary p), .ok p⟩

/-- Lower the tokens in the queue, and all that enter it on the way, to the end. The events come
after those of `log`. -/
def run (o : Options) (s : Lowering) (log : Array Event) : Outcome Program :=
  match _hq : s.queue.pop? with
  | none => s.finish log
  | some (i, queue) =>
    match _h : advance { s with queue } o i with
    | .error e => ⟨log, .error e⟩
    | .ok (s', event) => run o s' (log ++ event.toArray)
termination_by s.measure
decreasing_by exact advance_lt (Queue.pop?_eq_some_iff.1 _hq) _h

section

variable {o : Options} {s s' : Lowering} {log : Array Event} {i : Pending}
  {queue : Queue Pending} {event : Option Event} {e : CompileError}

theorem run_of_queue_nil (hq : s.queue.toList = []) : run o s log = s.finish log := by
  have hpop := Queue.pop?_eq_none_iff.2 hq
  rw [run]
  split
  · rfl
  · next hsome => cases hpop.symm.trans hsome

/-- The first error ends a lowering. -/
theorem run_of_advance_error (hq : s.queue.toList = i :: queue.toList)
    (h : advance { s with queue } o i = .error e) : run o s log = ⟨log, .error e⟩ := by
  have hpop := Queue.pop?_eq_some_iff.2 hq
  rw [run]
  split
  · next hnone => cases hpop.symm.trans hnone
  · next hsome =>
    cases hpop.symm.trans hsome
    split
    · next herr => cases h.symm.trans herr; rfl
    · next hok => cases h.symm.trans hok

/-- A lowering goes on from the state after its first step. -/
theorem run_of_advance_ok (hq : s.queue.toList = i :: queue.toList)
    (h : advance { s with queue } o i = .ok (s', event)) :
    run o s log = run o s' (log ++ event.toArray) := by
  have hpop := Queue.pop?_eq_some_iff.2 hq
  rw [run]
  split
  · next hnone => cases hpop.symm.trans hnone
  · next hsome =>
    cases hpop.symm.trans hsome
    split
    · next herr => cases h.symm.trans herr
    · next hok => cases h.symm.trans hok; rfl

end

end Lowering

/-- Lower a list of tokens to a program. -/
def lower (o : Options) (tokens : List Token) : Outcome Program :=
  Lowering.run o (.start tokens) #[]

end StackLang
