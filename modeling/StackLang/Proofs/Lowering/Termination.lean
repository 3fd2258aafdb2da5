import Mathlib.Data.List.Perm.Subperm
import StackLang.Proofs.Lowering.Recursion

/-!
# Termination without a limit

Nothing but the test for recursion bounds the work of a lowering that has no limit: every
expansion adds to the waiting tokens, and in place even a definition may have come out of a body.
Two facts keep the work finite.

- *Definitions.* Each one uses up an `end`, and bodies bring none (`Step.ends_budget`). So a
  source defines no more macros than it has `end`s.
- *Expansions.* The names in a trail are distinct, and all of them are defined (`Trailed`). So a
  trail is no longer than the table.

They make the measure of the state fall with every step (`advance_lt`), whatever the limit.

**Theorem (`lower_terminates`).** Every source reaches a program or an error after finitely many
steps, and both facts hold all the way.
-/

namespace StackLang.Lowering

variable {o : Options} {s s' s'' : Lowering} {mv : Move} {mvs mvs' : List Move}

/-! ## Definitions -/

/-- **A definition costs an `end`**, and nothing makes new ones. -/
theorem Step.ends_budget (h : Step o s mv s') :
    s'.macros.size + ends s'.waiting ≤ s.macros.size + ends s.waiting := by
  cases h with
  | @emit i rest op a hq hm hop hne hplace =>
    rw [hq, ends_cons, waiting_ofList]
    dsimp only
    omega
  | @expand i rest name body hq hm hfree hlimit =>
    have hbody : ends (merge o.placement rest (body.pending name i.trail)) = ends rest := by
      unfold merge
      split <;> rw [ends_append, ends_pending]
      · rfl
      · exact Nat.zero_add _
    rw [hq, ends_cons, waiting_ofList, hbody]
    dsimp only
    omega
  | define hq hm hkey hname hcut =>
    have hends := ends_of_cut? hcut
    rw [hq, ends_cons, ends_cons, waiting_ofList, MacroTable.size_insert]
    omega

theorem Path.ends_budget (h : Path o s mvs s') :
    s'.macros.size + ends s'.waiting ≤ s.macros.size + ends s.waiting := by
  induction h with
  | nil => exact le_rfl
  | cons hstep _ ih => exact ih.trans hstep.ends_budget

theorem ends_start (ts : List Token) : ends (start ts).waiting = ts.countP (·.isEnd) := by
  rw [waiting_start, ends, List.countP_map]
  rfl

/-- A source defines no more macros than it has `end`s. -/
theorem Path.size_le_ends {ts : List Token} (h : Path o (start ts) mvs s) :
    s.macros.size ≤ ts.countP (·.isEnd) := by
  have hbudget := h.ends_budget
  have hempty : (start ts).macros.size = 0 := rfl
  rw [hempty, ends_start] at hbudget
  omega

/-! ## Trails -/

theorem Step.names_subset (h : Step o s mv s') : s.macros.names ⊆ s'.macros.names := by
  cases h with
  | emit => exact List.Subset.refl _
  | expand => exact List.Subset.refl _
  | define =>
    rw [MacroTable.names_insert]
    exact List.subset_append_left ..

/-- The trails of all waiting tokens consist of distinct names of macros. -/
def Trailed (s : Lowering) : Prop :=
  ∀ i ∈ s.waiting, i.trail.Nodup ∧ i.trail ⊆ s.macros.names

theorem trailed_start (ts : List Token) : (start ts).Trailed := by
  intro i hi
  obtain ⟨t, rfl⟩ := exists_token_of_mem_start hi
  exact ⟨List.nodup_nil, List.nil_subset _⟩

/-- An invocation that is expanded has its name in no trail yet. -/
theorem Step.trailed (h : Step o s mv s') (hs : s.Trailed) : s'.Trailed := by
  intro j hj
  rcases h.mem_waiting hj with hj | ⟨i, hi, name, body, hm, hfree, hj⟩
  · exact ⟨(hs j hj).1, List.Subset.trans (hs j hj).2 h.names_subset⟩
  · obtain ⟨hnodup, hnames⟩ := hs i hi
    rw [(MacroBody.of_mem_pending hj).2]
    refine ⟨List.nodup_cons.2 ⟨hfree, hnodup⟩, List.cons_subset.2 ⟨?_, ?_⟩⟩
    · exact h.names_subset (MacroTable.mem_names_of_invoked? hm)
    · exact List.Subset.trans hnames h.names_subset

theorem Path.trailed (h : Path o s mvs s') (hs : s.Trailed) : s'.Trailed :=
  h.invariant (fun _ _ _ hs hstep => hstep.trailed hs) hs

/-- Distinct names of a table are no more than it has macros. -/
theorem Trailed.length_le (hs : s.Trailed) {i : Pending} (hi : i ∈ s.waiting) :
    i.trail.length ≤ s.macros.size := by
  obtain ⟨hnodup, hnames⟩ := hs i hi
  calc i.trail.length ≤ s.macros.names.length := (List.subperm_of_subset hnodup hnames).length_le
    _ = s.macros.size := List.length_map _

/-! ## The end -/

/-- A lowering that is finished, or that fails, has no step. -/
theorem Step.not_halted (h : Step o s mv s') : ¬ (s.waiting = [] ∨ ∃ e, Fails o s e) := by
  obtain ⟨i, queue, hq, hadv⟩ := h.advance
  rintro (hnil | ⟨e, i', queue', hq', hfails⟩)
  · cases hq.symm.trans hnil
  · obtain ⟨rfl, hqueue⟩ := List.cons.inj (hq.symm.trans hq')
    obtain rfl := Queue.ext hqueue
    cases hadv.symm.trans hfails

/-- A lowering that has not come to its end has a step. -/
theorem halted_or_exists_step (o : Options) (s : Lowering) :
    (s.waiting = [] ∨ ∃ e, Fails o s e) ∨ ∃ mv s', Step o s mv s' := by
  obtain ⟨mvs, hpath, hend⟩ := exists_path_last o s
  generalize last o s = s' at hpath hend
  cases hpath with
  | nil => exact .inl hend
  | cons hstep => exact .inr ⟨_, _, hstep⟩

/-- Every path is a part of the one that leads to the end. -/
theorem Path.length_le_of_halted (h : Path o s mvs s')
    (hend : s'.waiting = [] ∨ ∃ e, Fails o s' e) (h' : Path o s mvs' s'') :
    mvs'.length ≤ mvs.length := by
  induction h generalizing mvs' with
  | nil =>
    cases h' with
    | nil => exact le_rfl
    | cons hstep => exact absurd hend hstep.not_halted
  | cons hstep _ ih =>
    cases h' with
    | nil => exact Nat.zero_le _
    | cons hstep' hrest' =>
      obtain rfl := hstep.unique hstep'
      exact Nat.succ_le_succ (ih hend hrest')

/-- The result of a lowering that uses up its tokens. -/
theorem Path.result_of_waiting_nil (h : Path o s mvs s') (hend : s'.waiting = [])
    (log : Array Event) : (run o s log).result = s'.assembly.finish := by
  rw [run_of_path h, run_of_queue_nil hend, finish]
  split <;> next hfinish => rw [hfinish]

/-- The result of a lowering that comes to a failure. -/
theorem Path.result_of_fails {e : CompileError} (h : Path o s mvs s') (hfails : Fails o s' e)
    (log : Array Event) : (run o s log).result = .error e := by
  rw [run_of_path h, run_of_fails hfails]

/-- The result of a lowering is read off at the end of its path. -/
theorem Path.result_of_halted (h : Path o s mvs s')
    (hend : s'.waiting = [] ∨ ∃ e, Fails o s' e) (log : Array Event) :
    s'.waiting = [] ∧ (run o s log).result = s'.assembly.finish ∨
      ∃ e, Fails o s' e ∧ (run o s log).result = .error e := by
  rcases hend with hend | ⟨e, hfails⟩
  · exact .inl ⟨hend, h.result_of_waiting_nil hend log⟩
  · exact .inr ⟨e, hfails, h.result_of_fails hfails log⟩

/-- **Lowering terminates**, with a limit or without one. There is a path from the source to a
state where the result is read off, and no path from the source is longer. On the way there are
never more macros than the source has `end`s, and no trail is longer than the table. -/
theorem lower_terminates (o : Options) (ts : List Token) :
    (∃ mvs s, Path o (start ts) mvs s ∧
      (s.waiting = [] ∧ (lower o ts).result = s.assembly.finish ∨
        ∃ e, Fails o s e ∧ (lower o ts).result = .error e) ∧
      ∀ mvs' s', Path o (start ts) mvs' s' → mvs'.length ≤ mvs.length) ∧
    ∀ mvs s, Path o (start ts) mvs s →
      s.macros.size ≤ ts.countP (·.isEnd) ∧
      ∀ i ∈ s.waiting, i.trail.length ≤ s.macros.size := by
  refine ⟨?_, fun mvs s hpath => ⟨hpath.size_le_ends, fun i hi => ?_⟩⟩
  · obtain ⟨mvs, hpath, hend⟩ := exists_path_last o (start ts)
    refine ⟨mvs, _, hpath, hpath.result_of_halted hend #[], fun mvs' s' hpath' => ?_⟩
    exact hpath.length_le_of_halted hend hpath'
  · exact (hpath.trailed (trailed_start ts)).length_le hi

end StackLang.Lowering
