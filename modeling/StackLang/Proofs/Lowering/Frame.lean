import StackLang.Proofs.Lowering.Placements
import StackLang.Proofs.Lowering.Recursion

/-!
# What has not been read does not matter

When bodies run in place, a lowering works at the front of what waits, and only a definition looks
further back, for its `end`. So if a path ends where some tokens of the source have their turn, it
has not looked at them, and it is a path with any other tokens in their place.

**Theorem (`Path.replace_rest`).** This is so. The tokens of the source that still wait become fewer
with every one that is taken (`Step.unread_le`), so a path cannot have come back to tokens that a
definition has reached into.
-/

namespace StackLang.Lowering

variable {o : Options} {s s' : Lowering} {mv : Move} {mvs : List Move} {i : Pending}
  {w x rest : List Pending}

/-! ## Tokens of the source -/

/-- The number of tokens of the source among those that wait. -/
def unread (w : List Pending) : Nat :=
  w.countP (·.trail = [])

theorem unread_append (w w' : List Pending) : unread (w ++ w') = unread w + unread w' :=
  List.countP_append

theorem unread_cons (hi : i.trail = []) (w : List Pending) : unread (i :: w) = unread w + 1 :=
  List.countP_cons_of_pos (decide_eq_true hi)

theorem unread_eq_zero (h : ∀ i ∈ w, i.trail ≠ []) : unread w = 0 :=
  List.countP_eq_zero.2 fun i hi => by simpa using h i hi

theorem unread_pending (b : MacroBody) (name : String) (trail : List String) :
    unread (b.pending name trail) = 0 :=
  unread_eq_zero fun _ => MacroBody.trail_ne_nil

theorem trail_source {ts : List Token} (hi : i ∈ source ts) : i.trail = [] := by
  obtain ⟨t, -, rfl⟩ := List.mem_map.1 hi
  rfl

theorem unread_source (ts : List Token) : unread (source ts) = ts.length := by
  rw [unread, source, List.countP_map]
  exact List.countP_eq_length.2 fun t _ => rfl

/-- A step takes the token in front and adds none of the source. -/
theorem Step.unread_le (h : Step o s mv s') (hq : s.waiting = i :: rest) :
    unread s'.waiting ≤ unread rest := by
  cases h with
  | emit hq' =>
    cases hq.symm.trans hq'
    exact le_rfl
  | @expand _ _ name body hq' =>
    cases hq.symm.trans hq'
    rw [waiting_ofList]
    unfold merge
    split <;> rw [unread_append, unread_pending]
    · rfl
    · exact (Nat.zero_add _).le
  | @define _ j _ rest' name body hq' hm hkey hname hcut =>
    cases hq.symm.trans hq'
    obtain ⟨inner, close, rfl, -, -⟩ := MacroBody.eq_of_cut? hcut
    have hsuffix : rest' <:+ j :: (inner ++ close :: rest') := ⟨j :: inner ++ [close], by simp⟩
    exact hsuffix.sublist.countP_le

theorem Path.unread_le (h : Path o s mvs s') : unread s'.waiting ≤ unread s.waiting := by
  induction h with
  | nil => exact le_rfl
  | @cons s s₁ s' mv mvs hstep _ ih =>
    obtain ⟨i, queue, hq, -⟩ := hstep.advance
    calc unread s'.waiting ≤ unread s₁.waiting := ih
      _ ≤ unread queue.toList := hstep.unread_le hq
      _ ≤ unread s.waiting := by
        rw [hq]
        exact List.Sublist.countP_le (List.sublist_cons_self i _)

/-! ## Replacing what has not been read -/

/-- The same state with other tokens waiting. -/
def withWaiting (s : Lowering) (w : List Pending) : Lowering :=
  { s with queue := .ofList w }

@[simp] theorem waiting_withWaiting (s : Lowering) (w : List Pending) :
    (s.withWaiting w).waiting = w := rfl

/-- **A step in place keeps to the front.** It leaves alone what waits behind the tokens `w`, and is
a step with any other tokens there, or else it is a definition that reaches into them. -/
theorem Step.frame (ho : o.placement = .inPlace) (h : Step o s mv s')
    (hq : s.waiting = i :: w ++ x) :
    (∃ w', s'.waiting = w' ++ x ∧
      ∀ y, Step o (s.withWaiting (i :: w ++ y)) mv (s'.withWaiting (w' ++ y))) ∨
    s'.waiting.length < x.length := by
  cases h with
  | @emit _ rest op a hq' hm hop hne hplace =>
    cases hq.symm.trans hq'
    exact .inl ⟨w, rfl, fun y => .emit rfl hm hop hne hplace⟩
  | @expand _ rest name body hq' hm hfree hlimit =>
    cases hq.symm.trans hq'
    refine .inl ⟨body.pending name i.trail ++ w, ?_, fun y => ?_⟩
    · rw [ho]
      exact (List.append_assoc ..).symm
    · have hmerge : merge o.placement (w ++ y) (body.pending name i.trail) =
          body.pending name i.trail ++ w ++ y := by
        rw [ho]
        exact (List.append_assoc ..).symm
      rw [← hmerge]
      exact .expand rfl hm hfree hlimit
  | @define _ j rest rest' name body hq' hm hkey hname hcut =>
    obtain ⟨inner, close, rfl, hclose, hb⟩ := MacroBody.eq_of_cut? hcut
    obtain ⟨rfl, htail⟩ := List.cons.inj (hq.symm.trans hq')
    have hsplit : w ++ x = (j :: inner) ++ close :: rest' := htail
    rcases eq_append_of_append hsplit with ⟨w', rfl, rfl⟩ | ⟨skipped, rfl⟩
    · refine .inl ⟨w', rfl, fun y => ?_⟩
      have hcut' : MacroBody.cut? (inner ++ close :: (w' ++ y)) = some (body, w' ++ y) :=
        MacroBody.cut?_of_append hclose hb
      refine .define ?_ hm hkey hname hcut'
      rw [waiting_withWaiting, List.cons_append, List.append_assoc]
      rfl
    · refine .inr ?_
      simp
      omega

/-- **A path that has come to tokens of the source has not looked at them.** -/
theorem Path.replace_rest (ho : o.placement = .inPlace) (h : Path o s mvs s') {ts : List Token}
    (hq : s.waiting = w ++ source ts) (hq' : s'.waiting = source ts) (y : List Pending) :
    Path o (s.withWaiting (w ++ y)) mvs (s'.withWaiting y) := by
  induction h generalizing w with
  | nil s =>
    obtain rfl : w = [] := List.append_left_eq_self.1 (hq.symm.trans hq')
    exact .nil _
  | @cons s s₁ s' mv mvs hstep hpath ih =>
    have hunread : ts.length ≤ unread s₁.waiting := by
      rw [← unread_source ts, ← hq']
      exact hpath.unread_le
    cases w with
    | nil =>
      -- the first of these tokens would have been taken
      obtain ⟨i, queue, hi, -⟩ := hstep.advance
      have hle := (hstep.unread_le hi).trans List.countP_le_length
      have hlength := congrArg List.length (hq.symm.trans hi)
      simp only [List.nil_append, source, List.length_map, List.length_cons] at hlength
      omega
    | cons i w =>
      rcases hstep.frame ho hq with ⟨w', hq₁, hstep'⟩ | hshort
      · exact .cons (hstep' y) (ih hq₁ hq')
      · have hle : unread s₁.waiting ≤ s₁.waiting.length := List.countP_le_length
        simp only [source, List.length_map] at hshort
        omega

/-- The end of a source that has not been read may be any other. -/
theorem Path.replace_source (ho : o.placement = .inPlace) {pre ts : List Token}
    (h : Path o (start (pre ++ ts)) mvs s) (hq : s.waiting = source ts) (ts' : List Token) :
    Path o (start (pre ++ ts')) mvs (s.withWaiting (source ts')) := by
  have hsource : (start (pre ++ ts)).waiting = source pre ++ source ts := List.map_append
  have hstart : (start (pre ++ ts)).withWaiting (source pre ++ source ts') = start (pre ++ ts') :=
    congrArg (start (pre ++ ts)).withWaiting List.map_append.symm
  rw [← hstart]
  exact h.replace_rest ho hsource hq (source ts')

end StackLang.Lowering
