import StackLang.Proofs.Lowering.Placements

/-!
# What is left of the source

Wherever bodies are placed, what waits falls into two parts. One of them is what is left of the
source, the other holds tokens of bodies; they are merged as any body is merged into the queue
(`Divided`).

**Theorem (`Path.divided`).** This holds along every path from a source. A step takes tokens
from the front, and what it leaves of two merged parts is merged of what it leaves of each
(`suffix_merge`). A body that is merged last may as well be merged with the bodies first
(`merge_merge`).
-/

namespace StackLang.Lowering

variable {o : Options} {s s' : Lowering} {mv : Move} {mvs : List Move} {ts left : List Token}
  {rest expanded : List Pending}

/-! ## Merging -/

theorem merge_merge (placement : Placement) (xs ys zs : List Pending) :
    merge placement (merge placement xs ys) zs = merge placement xs (merge placement ys zs) := by
  cases placement with
  | tail => exact List.append_assoc xs ys zs
  | inPlace => exact (List.append_assoc zs ys xs).symm

theorem suffix_append {xs ys zs : List Pending} (h : zs <:+ xs ++ ys) :
    (∃ xs', xs' <:+ xs ∧ zs = xs' ++ ys) ∨ zs <:+ ys := by
  obtain ⟨taken, htaken⟩ := h
  rcases List.append_eq_append_iff.1 htaken with ⟨xs', hxs, hzs⟩ | ⟨ys', -, hys⟩
  · exact .inl ⟨xs', ⟨taken, hxs.symm⟩, hzs⟩
  · exact .inr ⟨ys', hys.symm⟩

/-- What is left of two merged parts. -/
theorem suffix_merge {placement : Placement}
    (h : rest <:+ merge placement (source left) expanded) :
    ∃ left' expanded', left' <:+ left ∧ expanded' <:+ expanded ∧
      rest = merge placement (source left') expanded' := by
  cases placement with
  | tail =>
    rcases suffix_append h with ⟨front, hfront, rfl⟩ | hback
    · obtain ⟨left', hleft, rfl⟩ := List.suffix_map_iff.1 hfront
      exact ⟨left', expanded, hleft, List.suffix_refl _, rfl⟩
    · exact ⟨[], rest, List.nil_suffix, hback, rfl⟩
  | inPlace =>
    rcases suffix_append h with ⟨front, hfront, rfl⟩ | hback
    · exact ⟨left, front, List.suffix_refl _, hfront, rfl⟩
    · obtain ⟨left', hleft, rfl⟩ := List.suffix_map_iff.1 hback
      exact ⟨left', [], hleft, List.nil_suffix, rfl⟩

/-! ## The two parts -/

/-- What waits is what is left of the source `ts`, and tokens of bodies. -/
def Divided (o : Options) (ts : List Token) (s : Lowering) : Prop :=
  ∃ left expanded, left <:+ ts ∧ s.waiting = merge o.placement (source left) expanded ∧
    EndFree expanded ∧ ∀ i ∈ expanded, i.trail ≠ []

theorem divided_start (o : Options) (ts : List Token) : Divided o ts (start ts) := by
  refine ⟨ts, [], List.suffix_refl ts, ?_, nofun, nofun⟩
  rw [waiting_start]
  cases o.placement with
  | tail => exact (List.append_nil _).symm
  | inPlace => rfl

theorem Divided.of_suffix (hs : s.Divided o ts) (h : s'.waiting <:+ s.waiting) :
    s'.Divided o ts := by
  obtain ⟨left, expanded, hleft, hq, hfree, htrail⟩ := hs
  rw [hq] at h
  obtain ⟨left', expanded', hleft', hexpanded, hq'⟩ := suffix_merge h
  exact ⟨left', expanded', hleft'.trans hleft, hq', fun i hi => hfree i (hexpanded.subset hi),
    fun i hi => htrail i (hexpanded.subset hi)⟩

theorem Step.divided (h : Step o s mv s') (hs : s.Divided o ts) : s'.Divided o ts := by
  cases h with
  | @emit i rest op a hq =>
    apply hs.of_suffix
    rw [hq]
    exact List.suffix_cons i rest
  | @expand i rest name body hq =>
    have hrest : Divided o ts ⟨.ofList rest, s.macros, s.assembly, s.expansions⟩ := by
      apply hs.of_suffix
      rw [hq]
      exact List.suffix_cons i rest
    obtain ⟨left, expanded, hleft, hmerge, hfree, htrail⟩ := hrest
    have hbody := body.endFree_pending name i.trail
    refine ⟨left, merge o.placement expanded (body.pending name i.trail), hleft, ?_, ?_, ?_⟩
    · rw [← merge_merge, ← hmerge]
      rfl
    · intro j hj
      exact (mem_merge.1 hj).elim (hfree j) (hbody j)
    · intro j hj
      rcases mem_merge.1 hj with hj | hj
      · exact htrail j hj
      · exact MacroBody.trail_ne_nil hj
  | @define i j rest rest' name body hq hm hkey hname hcut =>
    obtain ⟨inner, close, rfl, -, -⟩ := MacroBody.eq_of_cut? hcut
    apply hs.of_suffix
    rw [hq]
    exact ⟨i :: j :: (inner ++ [close]), by simp⟩

/-- **What waits is what is left of the source, and tokens of bodies.** -/
theorem Path.divided (h : Path o (start ts) mvs s) : s.Divided o ts :=
  h.invariant (fun _ _ _ hs hstep => hstep.divided hs) (divided_start o ts)

end StackLang.Lowering
