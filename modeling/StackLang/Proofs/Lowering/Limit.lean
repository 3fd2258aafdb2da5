import StackLang.Proofs.Lowering.Inlining

/-!
# The limit on expansions

A limit stops a lowering at the first invocation that it does not allow, and changes nothing before
that. Which invocation this is can be read off the lowering without a limit: `invocations` lists
those that pass the test for recursion, which comes before the limit is looked at.

**Theorem (`lower_limit`).** With a limit `k`, a lowering is the one without a limit if that has no
more than `k` such invocations. Otherwise it fails at the invocation with the number `k`, counted
from zero. So a program that comes out under a limit also comes out under any greater one.

Both halves follow the path without a limit. As long as the limit allows the expansions its steps
are the same (`Step.withLimit`), and where it stops being so the lowering fails (`Fault.limit`).
-/

namespace StackLang

/-- A place at which a macro is invoked. -/
structure Invocation where
  location : Location
  name : String
deriving DecidableEq

namespace Lowering

/-- What the token `i` invokes, unless it came from an expansion of the same macro. -/
def invocation? (s : Lowering) (i : Pending) : Option Invocation :=
  match s.macros.invoked? i.token.word with
  | some (name, _) => if name ∈ i.trail then none else some ⟨i.token.location, name⟩
  | none => none

/-- The invocations that pass the test for recursion, in the order in which a lowering comes to
them. -/
def invocations (o : Options) (s : Lowering) : List Invocation :=
  match _hq : s.queue.pop? with
  | none => []
  | some (i, queue) =>
    match _h : advance { s with queue } o i with
    | .error _ => (s.invocation? i).toList
    | .ok (s', _) => (s.invocation? i).toList ++ invocations o s'
termination_by s.measure
decreasing_by exact advance_lt (Queue.pop?_eq_some_iff.1 _hq) _h

variable {o o' : Options} {s s' : Lowering} {i : Pending} {rest : List Pending} {mv : Move}
  {mvs : List Move} {e : CompileError} {k : Nat} {log : Array Event}

/-! ## The invocations of a path -/

theorem invocations_of_waiting_nil (h : s.waiting = []) : invocations o s = [] := by
  have hpop : s.queue.pop? = none := Queue.pop?_eq_none_iff.2 h
  rw [invocations]
  split
  · rfl
  · next hsome => cases hpop.symm.trans hsome

/-- Without a limit, a token at which a lowering fails invokes nothing, or it is a recursion. -/
theorem Fault.invocation?_eq_none (hlimit : o.limit = none) (h : Fault o s e)
    (hq : s.waiting = i :: rest) : s.invocation? i = none := by
  cases h with
  | recursive hq' hm hmem =>
    cases hq.symm.trans hq'
    simp [invocation?, hm, hmem]
  | limit _ _ _ hsome => cases hlimit.symm.trans hsome
  | operation hq' hm | place hq' hm | noName hq' hm | name hq' hm | unfinished hq' hm =>
    cases hq.symm.trans hq'
    simp [invocation?, hm]

theorem invocations_of_fails (hlimit : o.limit = none) (h : Fails o s e) :
    invocations o s = [] := by
  obtain ⟨i, queue, hq, hadv⟩ := id h
  have hpop : s.queue.pop? = some (i, queue) := Queue.pop?_eq_some_iff.2 hq
  rw [invocations]
  split
  · rfl
  · next hsome =>
    cases hpop.symm.trans hsome
    split
    · simp [(fails_iff.1 h).invocation?_eq_none hlimit hq]
    · next hok => cases hadv.symm.trans hok

theorem invocations_of_step (h : Step o s mv s') (hq : s.waiting = i :: rest) :
    invocations o s = (s.invocation? i).toList ++ invocations o s' := by
  obtain ⟨j, queue, hq', hadv⟩ := h.advance
  obtain ⟨rfl, -⟩ := List.cons.inj (hq.symm.trans hq')
  have hpop : s.queue.pop? = some (i, queue) := Queue.pop?_eq_some_iff.2 hq'
  rw [invocations]
  split
  · next hnone => cases hpop.symm.trans hnone
  · next hsome =>
    cases hpop.symm.trans hsome
    split
    · next herr => cases hadv.symm.trans herr
    · next hok => cases hadv.symm.trans hok; rfl

/-- The invocation that a move expands. -/
def Move.invocation? : Move → Option Invocation
  | expand i name _ => some ⟨i.token.location, name⟩
  | _ => none

/-- **The invocations of a lowering are those that its moves expand.** -/
theorem Step.invocations_eq (h : Step o s mv s') :
    invocations o s = mv.invocation?.toList ++ invocations o s' := by
  cases id h with
  | emit hq hm => simp [invocations_of_step h hq, invocation?, Move.invocation?, hm]
  | expand hq hm hfree => simp [invocations_of_step h hq, invocation?, Move.invocation?, hm, hfree]
  | define hq hm => simp [invocations_of_step h hq, invocation?, Move.invocation?, hm]

theorem Path.invocations_eq (h : Path o s mvs s') :
    invocations o s = mvs.filterMap (·.invocation?) ++ invocations o s' := by
  induction h with
  | nil => rfl
  | @cons _ _ _ mv _ hstep _ ih =>
    rw [hstep.invocations_eq, ih, List.filterMap_cons]
    cases mv.invocation? <;> rfl

theorem Step.expansions (h : Step o s mv s') :
    s'.expansions = s.expansions + mv.invocation?.toList.length := by
  cases h <;> rfl

/-! ## The same lowering under a limit -/

/-- **The limit decides no step but an expansion.** -/
theorem Step.withLimit (hp : o'.placement = o.placement) (h : Step o s mv s')
    (hallows : mv.invocation?.isSome → Allows o' s.expansions) : Step o' s mv s' := by
  cases h with
  | emit hq hm hop hne hplace => exact .emit hq hm hop hne hplace
  | expand hq hm hfree =>
    rw [← hp]
    exact .expand hq hm hfree (hallows rfl)
  | define hq hm hkey hname hcut => exact .define hq hm hkey hname hcut

/-- A limit that is reached makes the next expansion an error. -/
theorem Step.fails_of_limit (h : Step o s mv s') {x : Invocation} (hx : mv.invocation? = some x)
    (hk : o'.limit = some k) (hle : k ≤ s.expansions) :
    Fails o' s (.expansionLimit x.location x.name k) := by
  cases h with
  | emit => cases hx
  | expand hq hm hfree =>
    cases hx
    exact fails_iff.2 (.limit hq hm hfree hk hle)
  | define => cases hx

/-- A lowering that fails without a limit fails under any limit, and with the same error. -/
theorem Fails.withLimit (hlimit : o.limit = none) (h : Fails o s e) (o' : Options) :
    Fails o' s e := by
  rw [fails_iff] at h ⊢
  cases h with
  | recursive hq hm hmem => exact .recursive hq hm hmem
  | limit _ _ _ hsome => cases hlimit.symm.trans hsome
  | operation hq hm hop => exact .operation hq hm hop
  | place hq hm hop hne hplace => exact .place hq hm hop hne hplace
  | noName hq hm hkey => exact .noName hq hm hkey
  | name hq hm hkey hname => exact .name hq hm hkey hname
  | unfinished hq hm hkey hname hcut => exact .unfinished hq hm hkey hname hcut

/-- A step that two lowerings have in common is followed by what they have in common. -/
theorem run_congr_of_step (hp : o'.placement = o.placement) (h : Step o s mv s')
    (h' : Step o' s mv s') (hrest : ∀ log, run o' s' log = run o s' log) (log : Array Event) :
    run o' s log = run o s log := by
  have hevents : events o' [mv] = events o [mv] := by
    unfold events
    rw [hp]
  rw [run_of_path (.single h'), run_of_path (.single h), hevents, hrest]

/-- **A limit that is not exceeded makes no difference.** -/
theorem Path.run_of_le_limit (hp : o'.placement = o.placement) (hlimit : o.limit = none)
    (hk : o'.limit = some k) (h : Path o s mvs s') (hend : s'.waiting = [] ∨ ∃ e, Fails o s' e)
    (hle : s.expansions + (invocations o s).length ≤ k) (log : Array Event) :
    run o' s log = run o s log := by
  induction h generalizing log with
  | nil s =>
    rcases hend with hnil | ⟨e, he⟩
    · rw [run_of_queue_nil hnil, run_of_queue_nil hnil]
    · rw [run_of_fails (he.withLimit hlimit o'), run_of_fails he]
  | @cons s s₁ s' mv mvs hstep _ ih =>
    have hcount := hstep.expansions
    rw [hstep.invocations_eq, List.length_append] at hle
    have hallows : mv.invocation?.isSome → Allows o' s.expansions := by
      intro hsome limit hlimit'
      cases hk.symm.trans hlimit'
      obtain ⟨x, hx⟩ := Option.isSome_iff_exists.1 hsome
      simp [hx] at hle
      omega
    exact run_congr_of_step hp hstep (hstep.withLimit hp hallows) (ih hend (by omega)) log

/-- **A limit that is exceeded stops the lowering** at the first invocation beyond it. -/
theorem Path.run_of_limit_lt (hp : o'.placement = o.placement) (hlimit : o.limit = none)
    (hk : o'.limit = some k) (h : Path o s mvs s') (hend : s'.waiting = [] ∨ ∃ e, Fails o s' e)
    (hs : s.expansions ≤ k) {x : Invocation}
    (hx : (invocations o s)[k - s.expansions]? = some x) (log : Array Event) :
    (run o' s log).result = .error (.expansionLimit x.location x.name k) := by
  induction h generalizing log with
  | nil s =>
    have hnil : invocations o s = [] := by
      rcases hend with hnil | ⟨e, he⟩
      · exact invocations_of_waiting_nil hnil
      · exact invocations_of_fails hlimit he
    rw [hnil] at hx
    cases hx
  | @cons s s₁ s' mv mvs hstep _ ih =>
    have hcount := hstep.expansions
    rw [hstep.invocations_eq] at hx
    cases hmv : mv.invocation? with
    | none =>
      simp only [hmv, Option.toList_none, List.nil_append, List.length_nil] at hx hcount
      have hstep' : Step o' s mv s₁ := hstep.withLimit hp (by simp [hmv])
      rw [run_of_path (.single hstep')]
      exact ih hend (by omega) (by rw [hcount]; exact hx) _
    | some y =>
      simp only [hmv, Option.toList_some, List.singleton_append, List.length_singleton] at hx hcount
      by_cases hlt : s.expansions < k
      · -- the limit allows this one, and one less after it
        have hallows : Allows o' s.expansions := by
          intro limit hlimit'
          cases hk.symm.trans hlimit'
          exact hlt
        have hindex : k - s.expansions = (k - s₁.expansions) + 1 := by omega
        rw [hindex, List.getElem?_cons_succ] at hx
        rw [run_of_path (.single (hstep.withLimit hp fun _ => hallows))]
        exact ih hend (by omega) hx _
      · have hindex : k - s.expansions = 0 := by omega
        rw [hindex, List.getElem?_cons_zero] at hx
        cases hx
        rw [run_of_fails (hstep.fails_of_limit hmv hk (by omega))]

end Lowering

open Lowering

/-- **A limit only cuts a lowering short.** Let `es` be the invocations that pass the test for
recursion when there is no limit. A limit `k` changes nothing if `es` has no more than `k` elements,
whether a program or an error comes out. Otherwise the lowering fails at `es[k]`, and says that the
limit is exceeded. So a program that comes out under one limit is the program without a limit, and
comes out under all greater limits. -/
theorem lower_limit (o : Options) (ts : List Token) (k : Nat) :
    let unlimited : Options := { o with limit := none }
    let limited (k : Nat) : Options := { o with limit := some k }
    let es := invocations unlimited (start ts)
    (es.length ≤ k → lower (limited k) ts = lower unlimited ts) ∧
    (∀ h : k < es.length, (lower (limited k) ts).result =
      .error (.expansionLimit es[k].location es[k].name k)) ∧
    ∀ p : Program, (lower (limited k) ts).result = .ok p →
      (lower unlimited ts).result = .ok p ∧
        ∀ k', k ≤ k' → (lower (limited k') ts).result = .ok p := by
  intro unlimited limited es
  obtain ⟨mvs, hpath, hend⟩ := exists_path_last unlimited (start ts)
  have hplacement (k : Nat) : (limited k).placement = unlimited.placement := rfl
  have hwithin (k : Nat) (hle : es.length ≤ k) : lower (limited k) ts = lower unlimited ts := by
    have hcount : (start ts).expansions + es.length ≤ k := by simpa [start] using hle
    exact hpath.run_of_le_limit (hplacement k) rfl rfl hend hcount #[]
  have hexceeded (k : Nat) (h : k < es.length) : (lower (limited k) ts).result =
      .error (.expansionLimit es[k].location es[k].name k) := by
    have hnext : es[k - (start ts).expansions]? = some es[k] := List.getElem?_eq_getElem h
    exact hpath.run_of_limit_lt (hplacement k) rfl rfl hend (Nat.zero_le k) hnext #[]
  refine ⟨hwithin k, hexceeded k, fun p hp => ?_⟩
  have hle : es.length ≤ k := by
    by_contra hlt
    rw [hexceeded k (by omega)] at hp
    cases hp
  rw [hwithin k hle] at hp
  refine ⟨hp, fun k' hk' => ?_⟩
  rw [hwithin k' (hle.trans hk')]
  exact hp

/-- `macro g 1 end macro f g f end g f` makes three expansions in place and is then a recursion. A
limit of three gives the same error, and a limit of two stops at the `g` in the body of `f`. The
source `macro g 1 end g` has a program under the limit one. -/
theorem lower_limit_recursive :
    let at0 (w : Word) : Token := ⟨⟨"a", 0⟩, w⟩
    let at1 (w : Word) : Token := ⟨⟨"a", 1⟩, w⟩
    let define (name : String) (body : List Token) : List Token :=
      at0 (.identifier "macro") :: at0 (.identifier name) :: (body ++ [at0 (.identifier "end")])
    let ts := define "g" [at0 (.intLiteral 1)] ++
      define "f" [at1 (.identifier "g"), at1 (.identifier "f")] ++
      [at0 (.identifier "g"), at0 (.identifier "f")]
    let us := define "g" [at0 (.intLiteral 1)] ++ [at0 (.identifier "g")]
    let limited (limit : Option Nat) : Options := ⟨.inPlace, limit, true⟩
    let es := invocations (limited none) (start ts)
    es = [⟨⟨"a", 0⟩, "g"⟩, ⟨⟨"a", 0⟩, "f"⟩, ⟨⟨"a", 1⟩, "g"⟩] ∧
    (lower (limited none) ts).result = .error (.recursiveMacro ⟨"a", 1⟩ "f") ∧
    lower (limited (some 3)) ts = lower (limited none) ts ∧
    (lower (limited (some 2)) ts).result = .error (.expansionLimit ⟨"a", 1⟩ "g" 2) ∧
    (lower (limited (some 7)) us).result = .ok ⟨#[.pushInt 1 ⟨"a", 0⟩]⟩ := by
  intro at0 at1 define ts us limited es
  have hpath : ∃ mvs s, Path (limited none) (start ts) mvs s ∧
      Fails (limited none) s (.recursiveMacro ⟨"a", 1⟩ "f") ∧
      mvs.filterMap (·.invocation?) = [⟨⟨"a", 0⟩, "g"⟩, ⟨⟨"a", 0⟩, "f"⟩, ⟨⟨"a", 1⟩, "g"⟩] :=
    ⟨_, _, .cons (.define rfl rfl rfl rfl rfl) (.cons (.define rfl rfl rfl rfl rfl)
      (.cons (.expand rfl rfl (by decide) nofun) (.cons (.emit rfl rfl rfl nofun rfl)
        (.cons (.expand rfl rfl (by decide) nofun) (.cons (.expand rfl rfl (by decide) nofun)
          (.cons (.emit rfl rfl rfl nofun rfl) (.nil _))))))),
      ⟨_, .ofList [], rfl, rfl⟩, rfl⟩
  obtain ⟨mvs, s, hpath, hfails, hmvs⟩ := hpath
  have hes : es = [⟨⟨"a", 0⟩, "g"⟩, ⟨⟨"a", 0⟩, "f"⟩, ⟨⟨"a", 1⟩, "g"⟩] := by
    have hinvocations := hpath.invocations_eq
    rwa [hmvs, invocations_of_fails rfl hfails, List.append_nil] at hinvocations
  have hresult : (lower (limited none) ts).result = .error (.recursiveMacro ⟨"a", 1⟩ "f") := by
    rw [lower, run_of_path hpath, run_of_fails hfails]
  have hprogram : ∃ mvs s, Path (limited (some 1)) (start us) mvs s ∧ s.waiting = [] ∧
      s.assembly.finish = .ok ⟨#[.pushInt 1 ⟨"a", 0⟩]⟩ :=
    ⟨_, _, .cons (.define rfl rfl rfl rfl rfl)
      (.cons (.expand rfl rfl (by decide) fun _ hlimit => by cases hlimit; decide)
        (.cons (.emit rfl rfl rfl nofun rfl) (.nil _))), rfl, rfl⟩
  obtain ⟨mvs', s', hpath', hend, hfinish⟩ := hprogram
  have hthree : es.length ≤ 3 := by simp [hes]
  have htwo : 2 < es.length := by simp [hes]
  have hlast : es[2] = ⟨⟨"a", 1⟩, "g"⟩ := by simp [hes]
  have hstop := (lower_limit (limited none) ts 2).2.1 htwo
  have hgreater := (lower_limit (limited none) us 1).2.2 _ (run_ok_of_path hpath' hend hfinish)
  exact ⟨hes, hresult, (lower_limit (limited none) ts 3).1 hthree, hstop.trans (by rw [hlast]),
    hgreater.2 7 (by decide)⟩

end StackLang
