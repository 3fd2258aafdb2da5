import StackLang.Proofs.Assembly.Blocks
import StackLang.Proofs.Lowering.Fault

/-!
# Everything comes from the source

Tokens are copied and stored, but none is made up: whatever a lowering holds, in the queue, in a
body, as the name of a macro, as an operation or as an open block, was written in the source
(`Sourced`). Every step keeps this (`Step.sourced`), expansions included, however deeply they are
nested, since a body holds tokens of the source as they were written.

So every operation of the program is the operation of a token of the source, but for its jump
(`exists_token_of_lower`), and every error is reported where a token of the source was written
(`exists_location_of_lower`).
-/

namespace StackLang

namespace Lowering

/-- Everything in the state of a lowering comes from the tokens `ts`. -/
structure Sourced (ts : List Token) (s : Lowering) : Prop where
  waiting : ∀ i ∈ s.waiting, i.token ∈ ts
  names : ∀ name ∈ s.macros.names, ∃ t ∈ ts, t.word = .identifier name
  bodies : ∀ e ∈ s.macros.entries, e.2.tokens ⊆ ts
  operations : ∀ op ∈ s.assembly.program.unlinked, ∃ t ∈ ts, t.operation = .ok op
  blocks : ∀ b ∈ s.assembly.blocks, ∃ t ∈ ts, t.location = b.location

variable {o : Options} {s s' : Lowering} {mv : Move} {mvs : List Move} {ts : List Token}

theorem sourced_start (ts : List Token) : Sourced ts (start ts) where
  waiting i hi := by
    obtain ⟨t, ht, rfl⟩ := List.mem_map.1 hi
    exact ht
  names := nofun
  bodies := nofun
  operations _ hop := (List.not_mem_nil hop).elim
  blocks := nofun

/-- A token that waits after a step has waited before it or was in a body. -/
theorem Step.waiting_sourced (h : Step o s mv s') (hs : Sourced ts s) :
    ∀ i ∈ s'.waiting, i.token ∈ ts := by
  intro j hj
  rcases h.mem_waiting hj with hj | ⟨i, -, name, body, hm, -, hj⟩
  · exact hs.waiting j hj
  · obtain ⟨t, ht, rfl⟩ := List.mem_map.1 hj
    exact hs.bodies _ (MacroTable.mem_of_invoked? hm) ht

/-- **Every step keeps what comes from the source.** -/
theorem Step.sourced (h : Step o s mv s') (hs : Sourced ts s) : Sourced ts s' := by
  have hwaiting := h.waiting_sourced hs
  cases h with
  | expand => exact { hs with waiting := hwaiting }
  | @emit i rest op a hq hm hop hne hplace =>
    have hi : i.token ∈ ts := hs.waiting i (hq ▸ List.mem_cons_self)
    obtain ⟨hjump, hlocation⟩ := Token.operation_eq_ok hop
    obtain ⟨hprogram, outer, houter, hblocks⟩ := (Assembly.place_eq_ok_iff.1 hplace).blocks
    rw [Operation.unlink_of_jump hjump] at hprogram
    refine { hs with
      waiting := hwaiting
      operations := fun op' hop' => ?_
      blocks := fun b hb => ?_ }
    · rw [hprogram, List.mem_append, List.mem_singleton] at hop'
      rcases hop' with hop' | rfl
      · exact hs.operations op' hop'
      · exact ⟨i.token, hi, hop⟩
    · rcases hblocks with rfl | ⟨opener, hopened, -⟩
      · exact hs.blocks b (houter.subset hb)
      · rw [hopened] at hb
        rcases List.mem_cons.1 hb with rfl | hb
        · exact ⟨i.token, hi, hlocation.symm⟩
        · exact hs.blocks b (houter.subset hb)
  | @define i j rest rest' name body hq hm hkey hname hcut =>
    obtain ⟨inner, close, rfl, -, hbody⟩ := MacroBody.eq_of_cut? hcut
    obtain ⟨hword, -, -⟩ := MacroTable.checkName_eq_ok hname
    refine { hs with waiting := hwaiting, names := fun n hn => ?_, bodies := fun e he => ?_ }
    · rw [MacroTable.names_insert, List.mem_append, List.mem_singleton] at hn
      rcases hn with hn | rfl
      · exact hs.names n hn
      · exact ⟨j.token, hs.waiting j (by simp [hq]), hword⟩
    · rcases List.mem_append.1 he with he | he
      · exact hs.bodies e he
      · obtain rfl := List.mem_singleton.1 he
        intro t ht
        rw [hbody] at ht
        obtain ⟨k, hk, rfl⟩ := List.mem_map.1 ht
        exact hs.waiting k (by simp [hq, hk])

theorem Path.sourced (h : Path o (start ts) mvs s) : Sourced ts s :=
  h.invariant (fun _ _ _ hs hstep => hstep.sourced hs) (sourced_start ts)

end Lowering

open Lowering

variable {o : Options} {ts : List Token}

/-- Every operation of a lowered program is that of a token of the source, but for the jump. -/
theorem exists_token_of_lower {p : Program} (h : (lower o ts).result = .ok p) {op : Operation}
    (hop : op ∈ p.operations) : ∃ t ∈ ts, t.operation = .ok op.unlink := by
  obtain ⟨mvs, s, hpath, -, hfinish⟩ := path_of_run_ok h
  obtain ⟨-, rfl⟩ := Assembly.finish_eq_ok_iff.1 hfinish
  exact hpath.sourced.operations _ (List.mem_map_of_mem (Array.mem_toList_iff.2 hop))

/-- Every error of a lowering is reported where a token of the source was written. -/
theorem exists_location_of_lower {e : CompileError} (h : (lower o ts).result = .error e) :
    ∃ t ∈ ts, e.location? = some t.location := by
  obtain ⟨mvs, hpath, hfails | ⟨-, hfinish⟩⟩ := path_of_run_error h
  · obtain ⟨i, hi, hlocation⟩ := (fails_iff.1 hfails).exists_location
    exact ⟨i.token, hpath.sourced.waiting i hi, hlocation⟩
  · obtain ⟨block, outer, hblocks, rfl⟩ := Assembly.finish_eq_error_iff.1 hfinish
    obtain ⟨t, ht, hlocation⟩ := hpath.sourced.blocks block (hblocks ▸ List.mem_cons_self)
    exact ⟨t, ht, congrArg some hlocation.symm⟩

end StackLang
