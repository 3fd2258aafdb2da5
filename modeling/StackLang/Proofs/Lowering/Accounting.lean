import Mathlib.Algebra.GroupWithZero.Nat
import StackLang.Proofs.Lowering.Termination
import StackLang.Proofs.Lowering.Unknown

/-!
# What becomes of the tokens

Every token that ever waits is taken once: it is emitted, or it invokes a macro, or it belongs to a
definition, whose keyword, name and `end` are taken together with its body. What is added to the
waiting tokens are the bodies that are expanded.

**Theorem (`lower_accounts`).** So the size of a program is known from the lengths of the bodies
that have been defined and expanded, and the `end`s of the source are those of the definitions and
those of the program. The log reports just these lengths and, at its end, their numbers. Under a
limit it never reports more expansions than the limit allows.

Every step keeps the accounts (`Step.accounts`), and accounts of consecutive moves add up
(`Accounts.append`).
-/

namespace StackLang

/-! ## Lengths of bodies -/

/-- The length of the body that an event reports as defined. -/
def Event.definedLength? : Event → Option Nat
  | defined _ _ tokens => some tokens
  | _ => none

/-- The length of the body that an event reports as expanded. -/
def Event.expandedLength? : Event → Option Nat
  | expanding _ _ tokens _ => some tokens
  | _ => none

namespace Lowering

/-- The length of the body that a move defines. -/
def Move.definedLength? : Move → Option Nat
  | define _ _ body => some body.tokens.length
  | _ => none

/-- The length of the body that a move expands. -/
def Move.expandedLength? : Move → Option Nat
  | expand _ _ body => some body.tokens.length
  | _ => none

/-- The lengths of the bodies that the moves define, in order. -/
def definedLengths (mvs : List Move) : List Nat :=
  mvs.filterMap (·.definedLength?)

/-- The lengths of the bodies that the moves expand, in order. -/
def expandedLengths (mvs : List Move) : List Nat :=
  mvs.filterMap (·.expandedLength?)

variable {o : Options} {s s' s'' : Lowering} {mv : Move} {mvs mvs' : List Move} {ts : List Token}
  {p : Program}

/-! ## Accounts -/

/-- What the moves from one state to another have done to everything that is counted. -/
structure Accounts (s : Lowering) (mvs : List Move) (s' : Lowering) : Prop where
  /-- bodies are added; a token is emitted, invokes a macro or belongs to a definition -/
  tokens : s.waiting.length + (expandedLengths mvs).sum =
    s'.waiting.length + (emitted mvs).length + (expandedLengths mvs).length +
      ((definedLengths mvs).map (· + 3)).sum
  /-- an `end` is emitted or closes a definition -/
  ends : ends s.waiting =
    ends s'.waiting + (definedLengths mvs).length + (emitted mvs).countP (·.opcode = .endBlock)
  macros : s'.macros.size = s.macros.size + (definedLengths mvs).length
  expansions : s'.expansions = s.expansions + (expandedLengths mvs).length

theorem Accounts.nil (s : Lowering) : Accounts s [] s :=
  ⟨rfl, rfl, rfl, rfl⟩

theorem Accounts.append (h : Accounts s mvs s') (h' : Accounts s' mvs' s'') :
    Accounts s (mvs ++ mvs') s'' := by
  obtain ⟨htokens, hends, hmacros, hexpansions⟩ := h
  obtain ⟨htokens', hends', hmacros', hexpansions'⟩ := h'
  constructor <;>
    simp only [definedLengths, expandedLengths, emitted, List.filterMap_append, List.map_append,
      List.sum_append, List.length_append, List.countP_append] at * <;> omega

/-- A token has the opcode of `end` exactly if it is the word `end`. -/
theorem isEnd_iff_of_operation {t : Token} {op : Operation} (h : t.operation = .ok op) :
    t.isEnd = true ↔ op.opcode = .endBlock := by
  rw [Token.isEnd, Word.isIdentifier_iff]
  constructor
  · intro hword
    cases h.symm.trans (Token.operation_of_word hword (rfl : _ = some Opcode.endBlock))
    rfl
  · intro hop
    exact Token.word_of_operation h (by rw [hop]; rfl)

/-- Wherever a body is placed, nothing is lost. -/
theorem merge_perm (placement : Placement) (rest body : List Pending) :
    (merge placement rest body).Perm (rest ++ body) := by
  cases placement with
  | tail => exact .refl _
  | inPlace => exact List.perm_append_comm

theorem ends_of_endFree {waiting : List Pending} (h : EndFree waiting) : ends waiting = 0 :=
  List.countP_eq_zero.2 fun i hi => by simp [h i hi]

/-- A word that is not builtin is no `end`. -/
theorem isEnd_eq_false {t : Token} {name : String} (hword : t.word = .identifier name)
    (hbuiltin : Opcode.ofWord? name = none) : t.isEnd = false := by
  refine Bool.eq_false_iff.2 fun hend => ?_
  cases hword.symm.trans (Word.isIdentifier_iff.1 hend)
  cases hbuiltin

/-- **Every step keeps the accounts.** -/
theorem Step.accounts (h : Step o s mv s') (hs : s.macros.NoBuiltin) : Accounts s [mv] s' := by
  cases h with
  | @emit i rest op a hq hm hop hne hplace =>
    refine ⟨by rw [hq]; rfl, ?_, rfl, rfl⟩
    have hcount : (emitted [.emit op]).countP (·.opcode = .endBlock) =
        if i.token.isEnd then 1 else 0 := by
      simp [emitted, Move.operation?, isEnd_iff_of_operation hop]
    rw [hq, ends_cons, hcount]
    rfl
  | @expand i rest name body hq hm hfree hlimit =>
    have hperm := merge_perm o.placement rest (body.pending name i.trail)
    refine ⟨?_, ?_, rfl, rfl⟩
    · have hlength : (body.pending name i.trail).length = body.tokens.length := List.length_map _
      rw [hq, waiting_ofList, hperm.length_eq, List.length_append, hlength]
      exact Nat.add_right_comm rest.length 1 body.tokens.length
    · have hend : i.token.isEnd = false :=
        isEnd_eq_false (MacroTable.word_of_invoked? hm) (hs.ofWord?_eq_none hm)
      have hends : ends (merge o.placement rest (body.pending name i.trail)) = ends rest := by
        rw [ends, hperm.countP_eq, ← ends, ends_append, ends_pending, Nat.add_zero]
      rw [hq, ends_cons, waiting_ofList, hends, hend]
      rfl
  | @define i j rest rest' name body hq hm hkey hname hcut =>
    obtain ⟨inner, close, rfl, hclose, hbody⟩ := MacroBody.eq_of_cut? hcut
    obtain ⟨hword, hbuiltin, -⟩ := MacroTable.checkName_eq_ok hname
    refine ⟨?_, ?_, MacroTable.size_insert .., rfl⟩
    · -- the keyword, the name and the `end` are taken with the body
      have hlength : (i :: j :: (inner ++ close :: rest')).length =
          rest'.length + (body.tokens.length + 3) := by
        simp only [hbody, List.length_cons, List.length_append, List.length_map]
        omega
      rw [hq, hlength]
      rfl
    · have hkeyEnd : i.token.isEnd = false := by rw [Token.isEnd, hkey]; rfl
      have hinner : ends inner = 0 :=
        ends_of_endFree fun k hk => body.endFree k.token (hbody ▸ List.mem_map_of_mem hk)
      rw [hq, ends_cons, ends_cons, ends_append, ends_cons, hinner, hkeyEnd,
        isEnd_eq_false hword hbuiltin, hclose, Nat.zero_add]
      rfl

theorem Path.accounts (h : Path o s mvs s') (hs : s.macros.NoBuiltin) : Accounts s mvs s' := by
  induction h with
  | nil s => exact .nil s
  | @cons s s₁ s' mv mvs hstep _ ih =>
    exact (hstep.accounts hs).append (ih ((Path.single hstep).noBuiltin hs))

/-! ## The log -/

theorem filterMap_definedLength_events (o : Options) (mvs : List Move) :
    (events o mvs).filterMap (·.definedLength?) = definedLengths mvs := by
  rw [events, List.filterMap_filterMap]
  refine List.filterMap_congr fun mv _ => ?_
  cases mv <;> rfl

theorem filterMap_expandedLength_events (o : Options) (mvs : List Move) :
    (events o mvs).filterMap (·.expandedLength?) = expandedLengths mvs := by
  rw [events, List.filterMap_filterMap]
  refine List.filterMap_congr fun mv _ => ?_
  cases mv <;> rfl

/-- Whatever a lowering returns, it reports the expansions of its path and no others. -/
theorem Path.expandedLength_log (h : Path o s mvs s')
    (hend : s'.waiting = [] ∨ ∃ e, Fails o s' e) :
    (run o s #[]).log.toList.filterMap (·.expandedLength?) = expandedLengths mvs := by
  rw [run_of_path h, ← filterMap_expandedLength_events o mvs]
  rcases hend with hnil | ⟨e, hfails⟩
  · rw [run_of_queue_nil hnil, finish]
    split
    · simp
    · simp [summary, Event.expandedLength?]
  · rw [run_of_fails hfails]
    simp

/-- A finished program has the operations that were emitted, and their `end`s. -/
theorem Path.program_accounts (h : Path o (start ts) mvs s) (hfinish : s.assembly.finish = .ok p) :
    p.size = (emitted mvs).length ∧
      p.operations.countP (·.opcode = .endBlock) =
        (emitted mvs).countP (·.opcode = .endBlock) := by
  obtain ⟨-, rfl⟩ := Assembly.finish_eq_ok_iff.1 hfinish
  have hunlinked : s.assembly.program.unlinked = emitted mvs := h.unlinked
  constructor
  · rw [← Program.length_unlinked, hunlinked]
  · rw [← hunlinked, Program.unlinked, List.countP_map, ← Array.countP_toList]
    rfl

/-- The limit is not exceeded on any path. -/
theorem Path.length_expandedLengths_le {k : Nat} (h : Path o (start ts) mvs s)
    (hlimit : o.limit = some k) : (expandedLengths mvs).length ≤ k := by
  have hcount := (h.accounts MacroTable.noBuiltin_empty).expansions
  have hzero : (start ts).expansions = 0 := rfl
  rw [hzero, Nat.zero_add] at hcount
  rw [← hcount]
  by_contra hlt
  exact Nat.lt_irrefl k (h.allows nofun k (Nat.lt_of_not_le hlt) k hlimit)

end Lowering

open Lowering

/-- **Nothing is lost.** If a source has a program, then the operations, the expanded invocations
and the definitions, with three words beside the body each, are the tokens of the source and of the
bodies that were expanded. The `end`s of the source close definitions or are in the program. The
last event reports the size of the program and the numbers of definitions and expansions, and the
events before it report their lengths, one for each. Whatever the result, there are never more
expansions than the limit allows. -/
theorem lower_accounts (o : Options) (ts : List Token) :
    (∀ p, (lower o ts).result = .ok p →
      ∃ mvs s, Path o (start ts) mvs s ∧ s.waiting = [] ∧
        let ds := definedLengths mvs
        let es := expandedLengths mvs
        p.size + es.length + (ds.map (· + 3)).sum = ts.length + es.sum ∧
        ts.countP (·.isEnd) = ds.length + p.operations.countP (·.opcode = .endBlock) ∧
        ∃ log : Array Event, (lower o ts).log = log.push (.generated p.size ds.length es.length) ∧
          log.toList.filterMap (·.definedLength?) = ds ∧
          log.toList.filterMap (·.expandedLength?) = es) ∧
    ∀ k, o.limit = some k →
      ((lower o ts).log.toList.filterMap (·.expandedLength?)).length ≤ k := by
  refine ⟨fun p hp => ?_, fun k hk => ?_⟩
  · obtain ⟨mvs, s, hpath, hend, hfinish⟩ := path_of_run_ok hp
    obtain ⟨htokens, hends, hmacros, hexpansions⟩ := hpath.accounts MacroTable.noBuiltin_empty
    obtain ⟨hsize, hblocks⟩ := hpath.program_accounts hfinish
    have hnil : (start ts).macros.size = 0 := rfl
    have hzero : (start ts).expansions = 0 := rfl
    have hlength : (start ts).waiting.length = ts.length := List.length_map _
    refine ⟨mvs, s, hpath, hend, ?_, ?_, (events o mvs).toArray, ?_, ?_, ?_⟩
    · rw [hlength, hend, List.length_nil] at htokens
      rw [hsize]
      omega
    · rw [ends_start, hend, ends, List.countP_nil, Nat.zero_add] at hends
      rw [hends, hblocks]
    · rw [hnil, Nat.zero_add] at hmacros
      rw [hzero, Nat.zero_add] at hexpansions
      rw [lower, log_of_path hpath hend hfinish, summary, hmacros, hexpansions, Array.empty_append]
    · exact filterMap_definedLength_events o mvs
    · exact filterMap_expandedLength_events o mvs
  · obtain ⟨mvs, hpath, hend⟩ := exists_path_last o (start ts)
    rw [lower, hpath.expandedLength_log hend]
    exact hpath.length_expandedLengths_le hk

/-- `macro f macro g 1 end f 2 end g if end` under the limit it needs. The body of `f` defines `g`,
and the definition takes in a token of the source. -/
theorem lower_accounts_nested :
    let o : Options := ⟨.inPlace, some 2, true⟩
    let word (name : String) : Token := ⟨⟨"a", 0⟩, .identifier name⟩
    let one : Token := ⟨⟨"a", 1⟩, .intLiteral 1⟩
    let two : Token := ⟨⟨"a", 2⟩, .intLiteral 2⟩
    let ts : List Token := [word "macro", word "f", word "macro", word "g", one, word "end",
      word "f", two, word "end", word "g", word "if", word "end"]
    let p : Program := ⟨#[.pushInt 1 ⟨"a", 1⟩, .pushInt 2 ⟨"a", 2⟩,
      ⟨.ifBlock, none, some 3, ⟨"a", 0⟩⟩, ⟨.endBlock, none, some 4, ⟨"a", 0⟩⟩]⟩
    (lower o ts).result = .ok p ∧
      (∃ mvs s, Path o (start ts) mvs s ∧ s.waiting = [] ∧
        definedLengths mvs = [3, 2] ∧ expandedLengths mvs = [3, 2] ∧
        p.size + 2 + ([3, 2].map (· + 3)).sum = ts.length + [3, 2].sum ∧
        ts.countP (·.isEnd) = 2 + p.operations.countP (·.opcode = .endBlock)) ∧
      ((lower o ts).log.toList.filterMap (·.expandedLength?)).length ≤ 2 := by
  intro o word one two ts p
  have hpath : ∃ mvs s, Path o (start ts) mvs s ∧ s.waiting = [] ∧ s.assembly.finish = .ok p ∧
      s.summary p = .generated 4 2 2 ∧
      (events o mvs).filterMap (·.definedLength?) = [3, 2] ∧
      (events o mvs).filterMap (·.expandedLength?) = [3, 2] :=
    ⟨_, _, .cons (.define rfl rfl rfl rfl rfl)
      (.cons (.expand rfl rfl (by decide) fun _ h => by cases h; decide)
        (.cons (.define rfl rfl rfl rfl rfl)
          (.cons (.expand rfl rfl (by decide) fun _ h => by cases h; decide)
            (.cons (.emit rfl rfl rfl nofun rfl) (.cons (.emit rfl rfl rfl nofun rfl)
              (.cons (.emit rfl rfl rfl nofun rfl) (.cons (.emit rfl rfl rfl nofun rfl)
                (.nil _)))))))), rfl, rfl, rfl, rfl, rfl⟩
  obtain ⟨mvs, s, hpath, hend, hfinish, hsummary, hds, hes⟩ := hpath
  have hlower : (lower o ts).result = .ok p := run_ok_of_path hpath hend hfinish
  obtain ⟨haccounts, hlimit⟩ := lower_accounts o ts
  obtain ⟨mvs', s', hpath', hend', htokens, hends, log, hlog, hds', hes'⟩ := haccounts p hlower
  rw [lower, log_of_path hpath hend hfinish, Array.push_eq_push, Array.empty_append] at hlog
  rw [← hlog.2, hds] at hds'
  rw [← hlog.2, hes] at hes'
  rw [← hds', ← hes'] at htokens
  rw [← hds'] at hends
  exact ⟨hlower, ⟨mvs', s', hpath', hend', hds'.symm, hes'.symm, htokens, hends⟩, hlimit 2 rfl⟩

end StackLang
