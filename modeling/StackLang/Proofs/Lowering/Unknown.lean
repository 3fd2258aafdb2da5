import StackLang.Proofs.Lowering.Path
import StackLang.Proofs.Word

/-!
# What becomes of unknown words

A token that has no operation, because it is neither a literal nor builtin, can only be part of a
lowering that returns a program if its turn to be emitted never comes. Until it does, there are
three places where the token can be (`Kept`): it waits, its word is the name of a macro, or it has
been stored in the body of a macro that has not been expanded yet.

**Theorem (`unknown_of_lower`).** If a lowering returns a program, then every unknown token of the
source names a macro or is in the body of a macro that was never expanded.

One step moves the token from one of these places to another (`Step.kept`): a definition takes it
out of the queue, as a name or into a body, and an expansion of that body puts it back. In the end
nothing waits.
-/

namespace StackLang

/-- The macro that an event reports as expanded. -/
def Event.expanded? : Event → Option String
  | expanding _ name _ _ => some name
  | _ => none

namespace Lowering

variable {o : Options} {s s' : Lowering} {mv : Move} {mvs mvs' : List Move} {t : Token}

/-- Every macro that the moves expand is in the table. -/
def Expanded (mvs : List Move) (s : Lowering) : Prop :=
  ∀ i name body, .expand i name body ∈ mvs → s.macros.invoked? (.identifier name) ≠ none

/-- Where a token can be once moves have been made. -/
inductive Kept (t : Token) (mvs : List Move) (s : Lowering) : Prop
  /-- it waits -/
  | waits (i : Pending) (hi : i ∈ s.waiting) (ht : i.token = t)
  /-- its word names a macro -/
  | named (hm : s.macros.invoked? t.word ≠ none)
  /-- it is in the body of a macro that has not been expanded -/
  | stored (name : String) (body : MacroBody)
      (hm : s.macros.invoked? (.identifier name) = some (name, body)) (ht : t ∈ body.tokens)
      (hfree : ∀ i b, .expand i name b ∉ mvs)

theorem expanded_nil : Expanded [] s :=
  fun _ _ _ h => absurd h List.not_mem_nil

theorem Step.extends (h : Step o s mv s') : s.macros.Extends s'.macros :=
  (Path.single h).extends

theorem Step.expanded (h : Step o s mv s') (hmvs : Expanded mvs s) :
    Expanded (mvs ++ [mv]) s' := by
  intro i name body hmem
  have hold : s.macros.invoked? (.identifier name) ≠ none := by
    rcases List.mem_append.1 hmem with hmem | hmem
    · exact hmvs i name body hmem
    · obtain rfl := List.mem_singleton.1 hmem
      cases h with
      | expand _ hm =>
        rw [MacroTable.word_of_invoked? hm] at hm
        rw [hm]
        exact Option.some_ne_none _
  obtain ⟨e, he⟩ := Option.ne_none_iff_exists'.1 hold
  rw [h.extends _ _ he]
  exact Option.some_ne_none _

/-- **A step keeps a token that has no operation.** -/
theorem Step.kept (h : Step o s mv s') (hop : ∀ op, t.operation ≠ .ok op)
    (hmvs : Expanded mvs s) (hk : Kept t mvs s) : Kept t (mvs ++ [mv]) s' := by
  cases hk with
  | named hm =>
    obtain ⟨e, he⟩ := Option.ne_none_iff_exists'.1 hm
    exact .named (by rw [h.extends _ _ he]; exact Option.some_ne_none _)
  | waits i hi ht =>
    subst ht
    cases h with
    | emit hq hm hop' =>
      rw [hq] at hi
      rcases List.mem_cons.1 hi with rfl | hi
      · exact absurd hop' (hop _)
      · exact .waits i hi rfl
    | @expand _ _ _ body hq hm =>
      rw [hq] at hi
      rcases List.mem_cons.1 hi with rfl | hi
      · exact .named (by rw [hm]; exact Option.some_ne_none _)
      · exact .waits i (mem_merge.2 (.inl hi)) rfl
    | @define _ j rest rest' name body hq hm hkey hname hcut =>
      obtain ⟨inner, close, rfl, hclose, hbody⟩ := MacroBody.eq_of_cut? hcut
      obtain ⟨hword, hbuiltin, hfresh⟩ := MacroTable.checkName_eq_ok hname
      have hname' : (s.macros.insert name body).invoked? j.token.word = some (name, body) := by
        rw [MacroTable.invoked?_insert, hfresh, if_pos (Word.isIdentifier_iff.2 hword)]
        rfl
      rw [hq] at hi
      simp only [List.mem_cons, List.mem_append] at hi
      rcases hi with rfl | rfl | hi | rfl | hi
      · exact absurd (Token.operation_of_word hkey rfl) (hop _)
      · exact .named (by rw [hname']; exact Option.some_ne_none _)
      · refine .stored name body (hword ▸ hname') (hbody ▸ List.mem_map_of_mem hi) ?_
        intro k b hmem
        rw [List.mem_append, List.mem_singleton, or_iff_left nofun] at hmem
        exact hmvs k name b hmem (hword ▸ hfresh)
      · exact absurd (Token.operation_of_word (Word.isIdentifier_iff.1 hclose) rfl) (hop _)
      · exact .waits i hi rfl
  | stored name body hm ht hfree =>
    by_cases hmv : ∃ i b, mv = .expand i name b
    · obtain ⟨i, b, rfl⟩ := hmv
      cases h with
      | expand hq hm' =>
        rw [MacroTable.word_of_invoked? hm', hm] at hm'
        cases hm'
        exact .waits ⟨t, name :: i.trail⟩ (mem_merge.2 (.inr (List.mem_map_of_mem ht))) rfl
    · refine .stored name body (h.extends _ _ hm) ht fun i b hmem => ?_
      rcases List.mem_append.1 hmem with hmem | hmem
      · exact hfree i b hmem
      · exact hmv ⟨i, b, (List.mem_singleton.1 hmem).symm⟩

/-- **A path keeps a token that has no operation.** -/
theorem Path.kept (h : Path o s mvs' s') (hop : ∀ op, t.operation ≠ .ok op)
    (hmvs : Expanded mvs s) (hk : Kept t mvs s) : Kept t (mvs ++ mvs') s' := by
  induction h generalizing mvs with
  | nil => simpa using hk
  | @cons _ _ _ mv mvs' hstep _ ih =>
    have h := ih (hstep.expanded hmvs) (hstep.kept hop hmvs hk)
    rwa [List.append_assoc, List.singleton_append] at h

/-- The log of a lowering that returns a program. -/
theorem log_of_path {p : Program} {log : Array Event} (hpath : Path o s mvs s')
    (hend : s'.waiting = []) (hfinish : s'.assembly.finish = .ok p) :
    (run o s log).log = (log ++ (events o mvs).toArray).push (s'.summary p) := by
  rw [run_of_path hpath, run_of_queue_nil hend]
  simp only [finish, hfinish]

end Lowering

open Lowering

/-- **Unknown words of an accepted source.** Every token of the source without an operation names a
macro or is in the body of a macro that was never expanded. -/
theorem unknown_of_lower {o : Options} {ts : List Token} {p : Program}
    (h : (lower o ts).result = .ok p) {t : Token} (ht : t ∈ ts)
    (hop : ∀ op, t.operation ≠ .ok op) :
    (finalMacros o ts).invoked? t.word ≠ none ∨
      ∃ name body, (name, body) ∈ (finalMacros o ts).entries ∧ t ∈ body.tokens ∧
        ∀ e ∈ (lower o ts).log, e.expanded? ≠ some name := by
  obtain ⟨mvs, s, hpath, hend, hfinish⟩ := path_of_run_ok h
  have hstart : Kept t [] (start ts) :=
    .waits ⟨t, []⟩ (List.mem_map_of_mem ht) rfl
  have hlast : last o (start ts) = s := last_eq_of_path hpath (.inl hend)
  rw [finalMacros, hlast]
  cases hpath.kept hop expanded_nil hstart with
  | waits i hi => simp [hend] at hi
  | named hm => exact .inl hm
  | stored name body hm ht hfree =>
    refine .inr ⟨name, body, MacroTable.mem_of_invoked? hm, ht, fun e he hexpanded => ?_⟩
    rw [lower, log_of_path hpath hend hfinish] at he
    obtain ⟨mv, hmv, hevent⟩ : ∃ mv ∈ mvs, mv.event o.placement = some e := by
      have he' : e ∈ events o mvs ∨ e = s.summary p := by simpa using he
      rcases he' with he' | rfl
      · exact List.mem_filterMap.1 he'
      · cases hexpanded
    cases mv with
    | emit => cases hevent
    | define => cases hevent; cases hexpanded
    | expand i name' b =>
      cases hevent
      cases hexpanded
      exact hfree i b hmv

end StackLang
