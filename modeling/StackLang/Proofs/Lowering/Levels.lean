import Mathlib.Logic.Function.Iterate
import StackLang.Proofs.Lowering.Tail

/-!
# Bodies that run last run level by level

When bodies run last, the first level of a source are its tokens outside of definitions, and each
further level are the bodies that the tokens of the level before invoke. What invokes a macro is
settled by the table that the lowering ends with: a word that becomes the name of a macro has not
been used before it.

**Theorem (`lower_tail_levels`).** A program consists of the operations of the direct tokens of the
first level, then of the second, and so on, until a level is empty.

The first level holds the definitions and is taken by itself (`Path.level`). From then on no `end`
is waiting, and the same theorem leads from each level to the next.
-/

namespace StackLang

/-- The tokens of a level: those of the source outside of definitions, and after them the bodies
that the level before invokes. -/
def level (m : MacroTable MacroBody) (ts : List Token) (n : Nat) : List Token :=
  m.called^[n] (outsideDefinitions ts)

/-- The direct tokens of the first `n` of the levels that begin with `ts`, level by level. -/
def MacroTable.directLevels (m : MacroTable MacroBody) (ts : List Token) (n : Nat) : List Token :=
  (List.range n).flatMap fun k => m.direct (m.called^[k] ts)

theorem MacroTable.directLevels_succ (m : MacroTable MacroBody) (ts : List Token) (n : Nat) :
    m.directLevels ts (n + 1) = m.direct ts ++ m.directLevels (m.called ts) n := by
  rw [directLevels, List.range_succ_eq_map, List.flatMap_cons, List.flatMap_map]
  rfl

namespace Lowering

variable {o : Options} {s s' : Lowering} {mvs : List Move}

theorem Path.eq_nil_of_waiting (h : Path o s mvs s') (hs : s.waiting = []) : mvs = [] := by
  cases h with
  | nil => rfl
  | cons hstep =>
    obtain ⟨i, queue, hq, -⟩ := hstep.advance
    cases hs.symm.trans hq

/-- **Without an `end`, what waits is emitted level by level.** -/
theorem Path.levels (ho : o.placement = .tail) (h : Path o s mvs s') (hend : s'.waiting = [])
    (hclosed : s'.assembly.blocks = []) (hm : s.macros.NoBuiltin) (hfree : EndFree s.waiting) :
    ∃ n, s'.macros.called^[n] (s.waiting.map (·.token)) = [] ∧
      (emitted mvs).map Except.ok =
        (s'.macros.directLevels (s.waiting.map (·.token)) n).map (·.operation) := by
  induction hlength : mvs.length using Nat.strong_induction_on generalizing s mvs with
  | _ length ih =>
    by_cases hwaiting : s.waiting = []
    · obtain rfl := h.eq_nil_of_waiting hwaiting
      exact ⟨0, by rw [hwaiting]; rfl, rfl⟩
    · have hbodies : s.waiting = [] ++ s.waiting := rfl
      have hkeys := (h.keywordFree ho hend hclosed hm hbodies hfree).1
      have houtside : outsideDefinitions (s.waiting.map (·.token)) = s.waiting.map (·.token) := by
        refine outsideDefinitions_of_keywordFree fun t ht => ?_
        obtain ⟨i, hi, rfl⟩ := List.mem_map.1 ht
        exact hkeys i hi
      obtain ⟨mvs₁, s₁, mvs₂, bodies, rfl, hpath₁, hpath₂, hwaiting₁, hfree₁, hcalled, hops, hne⟩ :=
        h.level ho hend (h.noBuiltin hm) (List.append_nil s.waiting).symm nofun
      rw [houtside] at hcalled hops
      have hshorter : mvs₂.length < length := by
        rw [← hlength, List.length_append]
        exact Nat.lt_add_of_pos_left (List.length_pos_iff.2 (hne hwaiting))
      rw [List.nil_append] at hwaiting₁
      obtain ⟨n, hempty, hrest⟩ :=
        ih mvs₂.length hshorter hpath₂ (hpath₁.noBuiltin hm) (hwaiting₁ ▸ hfree₁) rfl
      rw [hwaiting₁, hcalled] at hempty hrest
      refine ⟨n + 1, hempty, ?_⟩
      rw [emitted_append, List.map_append, hops, hrest, MacroTable.directLevels_succ,
        List.map_append]

end Lowering

open Lowering

/-- **Bodies that run last run level by level.** If a source has a program, then a level is empty at
last, and the operations of the program are, but for their jumps, those of the tokens that invoke no
macro: first of the first level, then of the second, and so on, in the order of each level. -/
theorem lower_tail_levels {limit : Option Nat} {verify : Bool} {ts : List Token} {p : Program}
    (h : (lower ⟨.tail, limit, verify⟩ ts).result = .ok p) :
    let m := finalMacros ⟨.tail, limit, verify⟩ ts
    ∃ n, level m ts n = [] ∧
      p.unlinked.map Except.ok =
        ((List.range n).flatMap fun k =>
          (level m ts k).filter (!m.contains ·.word)).map (·.operation) := by
  intro m
  obtain ⟨mvs, s, hpath, hend, hclosed, rfl⟩ := (Path.nil (start ts)).exists_rest h
  have hm : m = s.macros := congrArg macros (last_eq_of_path hpath (.inl hend))
  obtain ⟨mvs₁, s₁, mvs₂, bodies, rfl, hpath₁, hpath₂, hwaiting, hfree, hbodies, hops, -⟩ :=
    hpath.level rfl hend (hpath.noBuiltin MacroTable.noBuiltin_empty)
      (List.append_nil (source ts)).symm nofun
  rw [map_token_source] at hbodies hops
  rw [List.nil_append] at hwaiting
  obtain ⟨n, hempty, hrest⟩ := hpath₂.levels rfl hend hclosed
    (hpath₁.noBuiltin MacroTable.noBuiltin_empty) (hwaiting ▸ hfree)
  rw [hwaiting, hbodies] at hempty hrest
  rw [hm]
  refine ⟨n + 1, hempty, ?_⟩
  have hlevels : (s.macros.directLevels (outsideDefinitions ts) (n + 1)).map (·.operation) =
      (emitted (mvs₁ ++ mvs₂)).map Except.ok := by
    rw [MacroTable.directLevels_succ, List.map_append, ← hops, ← hrest, emitted_append,
      List.map_append]
  rw [hpath.unlinked_start, ← hlevels]
  rfl

/-- `macro f 1 end macro g f f end 2 g f`, in which the levels are `2 g f`, `f f 1` and `1 1`. -/
theorem lower_tail_levels_nested :
    let at0 (w : Word) : Token := ⟨⟨"a", 0⟩, w⟩
    let ts : List Token := [at0 (.identifier "macro"), at0 (.identifier "f"), at0 (.intLiteral 1),
      at0 (.identifier "end"), at0 (.identifier "macro"), at0 (.identifier "g"),
      at0 (.identifier "f"), at0 (.identifier "f"), at0 (.identifier "end"),
      at0 (.intLiteral 2), at0 (.identifier "g"), at0 (.identifier "f")]
    let p : Program := ⟨#[.pushInt 2 ⟨"a", 0⟩, .pushInt 1 ⟨"a", 0⟩, .pushInt 1 ⟨"a", 0⟩,
      .pushInt 1 ⟨"a", 0⟩]⟩
    let m := finalMacros ⟨.tail, none, true⟩ ts
    (lower ⟨.tail, none, true⟩ ts).result = .ok p ∧
      ∃ n, level m ts n = [] ∧
        p.unlinked.map Except.ok =
          ((List.range n).flatMap fun k =>
            (level m ts k).filter (!m.contains ·.word)).map (·.operation) := by
  intro at0 ts p m
  have hpath : ∃ mvs s, Path ⟨.tail, none, true⟩ (start ts) mvs s ∧ s.waiting = [] ∧
      s.assembly.finish = .ok p :=
    ⟨_, _, .cons (.define rfl rfl rfl rfl rfl) (.cons (.define rfl rfl rfl rfl rfl)
      (.cons (.emit rfl rfl rfl nofun rfl) (.cons (.expand rfl rfl (by decide) nofun)
        (.cons (.expand rfl rfl (by decide) nofun) (.cons (.expand rfl rfl (by decide) nofun)
          (.cons (.expand rfl rfl (by decide) nofun) (.cons (.emit rfl rfl rfl nofun rfl)
            (.cons (.emit rfl rfl rfl nofun rfl) (.cons (.emit rfl rfl rfl nofun rfl)
              (.nil _)))))))))), rfl, rfl⟩
  obtain ⟨mvs, s, hpath, hend, hfinish⟩ := hpath
  have hlower : (lower ⟨.tail, none, true⟩ ts).result = .ok p :=
    run_ok_of_path hpath hend hfinish
  exact ⟨hlower, lower_tail_levels hlower⟩

end StackLang
