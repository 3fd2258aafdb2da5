import Mathlib.Data.List.Forall2
import StackLang.Proofs.Lowering.Frame
import StackLang.Proofs.Lowering.Termination

/-!
# An invocation in place is its body

When bodies run in place, an invocation in a source can be replaced by the body of the macro as it
is defined at that point. The two lowerings differ only in the trails of the tokens of the body:
those written into the source know of no invocation.

**Theorem (`Like.run_result`).** Shorter trails change nothing but reports of recursion. What one
lowering returns, the one with the shorter trails returns too.

**Theorem (`lower_inPlace_body`).** So whatever comes of the source with the invocation comes of the
source with the body, unless it is a recursion. And where a recursion is reported, the other source
has no program either: trails do not matter to a lowering without the test (`Path.endsUnchecked`),
and such a lowering finds no program where a recursion is reported (`not_ok_of_recursive`).
-/

namespace StackLang

open List (Forall₂)

namespace Lowering

variable {o : Options} {s s' t t' : Lowering} {mv : Move} {mvs : List Move} {e : CompileError}
  {r : List String → List String → Prop}

/-! ## The same tokens with other trails -/

/-- The same token, with trails related by `r`. -/
def SameToken (r : List String → List String → Prop) (i j : Pending) : Prop :=
  i.token = j.token ∧ r i.trail j.trail

theorem map_token_eq {w w' : List Pending} (h : Forall₂ (SameToken r) w w') :
    w.map (·.token) = w'.map (·.token) := by
  induction h with
  | nil => rfl
  | cons hi _ ih => rw [List.map_cons, List.map_cons, hi.1, ih]

theorem endFree_iff {w : List Pending} : EndFree w ↔ ∀ t ∈ w.map (·.token), t.isEnd = false := by
  rw [List.forall_mem_map]
  rfl

/-- Bodies are cut off alike. -/
theorem exists_cut? {w w' rest : List Pending} {b : MacroBody} (h : Forall₂ (SameToken r) w' w)
    (hcut : MacroBody.cut? w = some (b, rest)) :
    ∃ rest', MacroBody.cut? w' = some (b, rest') ∧ Forall₂ (SameToken r) rest' rest := by
  obtain ⟨inner, close, rfl, hclose, hb⟩ := MacroBody.eq_of_cut? hcut
  have hinner := List.forall₂_take_append w' inner (close :: rest) h
  obtain ⟨close', rest', hclose', hrest, hdrop⟩ :=
    List.forall₂_cons_right_iff.1 (List.forall₂_drop_append w' inner (close :: rest) h)
  refine ⟨rest', ?_, hrest⟩
  rw [← List.take_append_drop inner.length w', hdrop]
  refine MacroBody.cut?_of_append (by rw [hclose'.1, hclose]) ?_
  rw [hb, map_token_eq hinner]

theorem cut?_eq_none {w w' : List Pending} (h : Forall₂ (SameToken r) w' w)
    (hcut : MacroBody.cut? w = none) : MacroBody.cut? w' = none := by
  rw [MacroBody.cut?_eq_none_iff, endFree_iff] at hcut ⊢
  rw [map_token_eq h]
  exact hcut

/-- The lowering `t` has come as far as `s`, with trails related by `r`. -/
structure Like (r : List String → List String → Prop) (t s : Lowering) : Prop where
  waiting : Forall₂ (SameToken r) t.waiting s.waiting
  macros : t.macros = s.macros
  assembly : t.assembly = s.assembly

/-- What waits after an expansion, if trails may be extended. -/
theorem forall₂_merge (hr : ∀ name a b, r a b → r (name :: a) (name :: b)) {i j : Pending}
    (hij : SameToken r i j) {w w' : List Pending} (h : Forall₂ (SameToken r) w w')
    (placement : Placement) (name : String) (body : MacroBody) :
    Forall₂ (SameToken r) (merge placement w (body.pending name i.trail))
      (merge placement w' (body.pending name j.trail)) := by
  have hbody : Forall₂ (SameToken r) (body.pending name i.trail) (body.pending name j.trail) := by
    rw [MacroBody.pending, MacroBody.pending, List.forall₂_map_left_iff,
      List.forall₂_map_right_iff, List.forall₂_same]
    exact fun t _ => ⟨rfl, hr name _ _ hij.2⟩
  cases placement
  · exact List.rel_append h hbody
  · exact List.rel_append hbody h

/-- **Trails decide no step but an expansion.** The lowering with the other trails has the same
step, or else the step is an expansion, and only the test could keep the other from it. -/
theorem Like.step_or_expand (hr : ∀ name a b, r a b → r (name :: a) (name :: b)) (hs : Like r t s)
    (h : Step o s mv s') :
    (∃ mv' t', Step o t mv' t' ∧ Like r t' s') ∨
    ∃ (i j : Pending) (rest : List Pending) (name : String) (body : MacroBody),
      t.waiting = i :: rest ∧ t.macros.invoked? i.token.word = some (name, body) ∧
      r i.trail j.trail ∧ name ∉ j.trail ∧
      Like r ⟨.ofList (merge o.placement rest (body.pending name i.trail)), t.macros, t.assembly,
        t.expansions + 1⟩ s' := by
  obtain ⟨hwaiting, hmacros, hassembly⟩ := hs
  cases h with
  | @emit j rest op a hq hm hop hne hplace =>
    rw [hq] at hwaiting
    obtain ⟨i, rest', hi, hrest, hq'⟩ := List.forall₂_cons_right_iff.1 hwaiting
    rw [← hi.1, ← hmacros] at hm
    rw [← hi.1] at hop
    rw [← hassembly] at hplace
    exact .inl ⟨_, _, .emit hq' hm hop hne hplace, hrest, hmacros, rfl⟩
  | @expand j rest name body hq hm hfree hlimit =>
    rw [hq] at hwaiting
    obtain ⟨i, rest', hi, hrest, hq'⟩ := List.forall₂_cons_right_iff.1 hwaiting
    rw [← hi.1, ← hmacros] at hm
    refine .inr ⟨i, j, rest', name, body, hq', hm, hi.2, hfree, ?_, hmacros, hassembly⟩
    exact forall₂_merge hr hi hrest o.placement name body
  | @define i j rest rest' name body hq hm hkey hname hcut =>
    rw [hq] at hwaiting
    obtain ⟨i', w, hi, hw, hq'⟩ := List.forall₂_cons_right_iff.1 hwaiting
    obtain ⟨j', w', hj, hw', rfl⟩ := List.forall₂_cons_right_iff.1 hw
    obtain ⟨rest₁, hcut', hrest⟩ := exists_cut? hw' hcut
    rw [← hi.1, ← hmacros] at hm
    rw [← hi.1] at hkey
    rw [← hj.1, ← hmacros] at hname
    refine .inl ⟨_, _, .define hq' hm hkey hname hcut', hrest, ?_, hassembly⟩
    rw [hmacros]

/-! ## Shorter trails -/

theorem allows_of_limit_none (hlimit : o.limit = none) (n : Nat) : Allows o n := by
  intro limit hsome
  cases hlimit.symm.trans hsome

/-- **Shorter trails allow the same steps**, if there is no limit. -/
theorem Like.step (hlimit : o.limit = none) (hs : Like (· ⊆ ·) t s) (h : Step o s mv s') :
    ∃ mv' t', Step o t mv' t' ∧ Like (· ⊆ ·) t' s' := by
  have hr : ∀ (name : String) (a b : List String), a ⊆ b → name :: a ⊆ name :: b :=
    fun name _ _ => List.cons_subset_cons name
  rcases hs.step_or_expand hr h with hstep | ⟨i, j, rest, name, body, hq, hm, htrail, hfree, hs'⟩
  · exact hstep
  · have hfree' : name ∉ i.trail := fun hmem => hfree (htrail hmem)
    exact ⟨_, _, .expand hq hm hfree' (allows_of_limit_none hlimit _), hs'⟩

theorem Like.path (hlimit : o.limit = none) (h : Path o s mvs s') (hs : Like (· ⊆ ·) t s) :
    ∃ mvs' t', Path o t mvs' t' ∧ Like (· ⊆ ·) t' s' := by
  induction h generalizing t with
  | nil s => exact ⟨[], t, .nil t, hs⟩
  | cons hstep _ ih =>
    obtain ⟨mv', t₁, hstep', hs₁⟩ := hs.step hlimit hstep
    obtain ⟨mvs', t', hpath', hs'⟩ := ih hs₁
    exact ⟨_, t', .cons hstep' hpath', hs'⟩

/-- **Shorter trails leave the same errors**, but for a recursion. -/
theorem Like.fails (hlimit : o.limit = none) (hs : Like (· ⊆ ·) t s) (h : Fails o s e)
    (hrecursive : ∀ location name, e ≠ .recursiveMacro location name) : Fails o t e := by
  obtain ⟨hwaiting, hmacros, hassembly⟩ := hs
  rw [fails_iff] at h ⊢
  cases h with
  | recursive => exact absurd rfl (hrecursive _ _)
  | limit _ _ _ hsome => cases hlimit.symm.trans hsome
  | @operation i rest _ hq hm hop =>
    rw [hq] at hwaiting
    obtain ⟨j, rest', hij, -, hq'⟩ := List.forall₂_cons_right_iff.1 hwaiting
    rw [← hij.1] at hm hop
    exact .operation hq' (hmacros ▸ hm) hop
  | @place i rest op _ hq hm hop hne hplace =>
    rw [hq] at hwaiting
    obtain ⟨j, rest', hij, -, hq'⟩ := List.forall₂_cons_right_iff.1 hwaiting
    rw [← hij.1] at hm hop
    exact .place hq' (hmacros ▸ hm) hop hne (hassembly ▸ hplace)
  | @noName i hq hm hkey =>
    rw [hq] at hwaiting
    obtain ⟨j, rest', hij, hrest, hq'⟩ := List.forall₂_cons_right_iff.1 hwaiting
    obtain rfl := List.forall₂_nil_right_iff.1 hrest
    rw [← hij.1] at hm hkey ⊢
    exact .noName hq' (hmacros ▸ hm) hkey
  | @name i j rest _ hq hm hkey hname =>
    rw [hq] at hwaiting
    obtain ⟨i', w, hi, hw, hq'⟩ := List.forall₂_cons_right_iff.1 hwaiting
    obtain ⟨j', w', hj, -, rfl⟩ := List.forall₂_cons_right_iff.1 hw
    rw [← hi.1] at hm hkey
    rw [← hj.1] at hname
    exact .name hq' (hmacros ▸ hm) hkey (hmacros ▸ hname)
  | @unfinished i j rest name hq hm hkey hname hcut =>
    rw [hq] at hwaiting
    obtain ⟨i', w, hi, hw, hq'⟩ := List.forall₂_cons_right_iff.1 hwaiting
    obtain ⟨j', w', hj, hw', rfl⟩ := List.forall₂_cons_right_iff.1 hw
    rw [← hi.1] at hm hkey
    rw [← hj.1] at hname ⊢
    exact .unfinished hq' (hmacros ▸ hm) hkey (hmacros ▸ hname) (cut?_eq_none hw' hcut)

/-- **Shorter trails change no result** but a recursion. -/
theorem Like.run_result (hlimit : o.limit = none) (hs : Like (· ⊆ ·) t s) (log log' : Array Event)
    (hrecursive : ∀ location name, (run o s log).result ≠ .error (.recursiveMacro location name)) :
    (run o t log').result = (run o s log).result := by
  obtain ⟨mvs, hpath, hend⟩ := exists_path_last o s
  obtain ⟨mvs', t', hpath', hs'⟩ := hs.path hlimit hpath
  rcases hpath.result_of_halted hend log with ⟨hnil, hresult⟩ | ⟨e, hfails, hresult⟩
  · have hnil' : t'.waiting = [] := by
      have hwaiting := hs'.waiting
      rw [hnil] at hwaiting
      exact List.forall₂_nil_right_iff.1 hwaiting
    rw [hresult, hpath'.result_of_waiting_nil hnil' log', hs'.assembly]
  · have hfails' : Fails o t' e := hs'.fails hlimit hfails fun location name he =>
      hrecursive location name (he ▸ hresult)
    rw [hresult, hpath'.result_of_fails hfails' log']

/-! ## Any trails -/

/-- **Without the test trails do not matter.** A lowering that comes to its end does so from the
same tokens with any trails, if recursion is not tested. -/
theorem Path.endsUnchecked (hlimit : o.limit = none) (h : Path o s mvs s') (hend : s'.waiting = [])
    (hs : Like (fun _ _ => True) t s) : EndsUnchecked o t s'.assembly.finish := by
  induction h generalizing t with
  | nil s =>
    have hwaiting := hs.waiting
    rw [hend, List.forall₂_nil_right_iff] at hwaiting
    rw [← hs.assembly]
    exact .finish hwaiting
  | cons hstep _ ih =>
    rcases hs.step_or_expand (fun _ _ _ _ => trivial) hstep with
      ⟨mv', t', hstep', hs'⟩ | ⟨i, -, rest, name, body, hq, hm, -, -, hs'⟩
    · exact .of_step hstep' (ih hend hs')
    · exact .of_expand hq hm (allows_of_limit_none hlimit _) (ih hend hs')

/-- The states are also alike the other way round, if nothing is said about trails. -/
theorem Like.symm_any (hs : Like r t s) : Like (fun _ _ => True) s t := by
  refine ⟨(hs.waiting.imp fun i j hij => ?_).flip, hs.macros.symm, hs.assembly.symm⟩
  exact ⟨hij.1.symm, trivial⟩

/-- If a program comes of the same tokens with other trails, no recursion is reported. -/
theorem Like.not_recursive {ts : List Token} {log log' : Array Event} {p : Program}
    (hlimit : o.limit = none) (hpath : Path o (start ts) mvs s) (hs : Like r t s)
    (hok : (run o t log).result = .ok p) (location : Location) (name : String) :
    (run o s log').result ≠ .error (.recursiveMacro location name) := by
  intro h
  obtain ⟨mvs₁, hpath₁, hfails | ⟨-, hfinish⟩⟩ := path_of_run_error h
  · obtain ⟨mvs₂, t', hpath₂, hend, hfinish⟩ := path_of_run_ok hok
    have hends : EndsUnchecked o s (.ok p) :=
      hfinish ▸ hpath₂.endsUnchecked hlimit hend hs.symm_any
    exact not_ok_of_recursive rfl (hpath.append hpath₁) hfails (hends.of_path rfl hpath₁)
  · exact finish_ne_recursive _ hfinish

/-! ## The body in the source -/

/-- An expansion leaves the state that has the body in its source, but for the trails. -/
theorem Step.like_body {inv : Token} {post : List Token} {name : String} {body : MacroBody}
    (ho : o.placement = .inPlace) (hq : s.waiting = source (inv :: post))
    (h : Step o s (.expand ⟨inv, []⟩ name body) s') :
    Like (· ⊆ ·) (s.withWaiting (source (body.tokens ++ post))) s' := by
  cases h with
  | expand hq' =>
    cases hq.symm.trans hq'
    refine ⟨?_, rfl, rfl⟩
    have hbody : Forall₂ (SameToken (· ⊆ ·)) (source body.tokens) (body.pending name []) := by
      rw [source, MacroBody.pending, List.forall₂_map_left_iff, List.forall₂_map_right_iff,
        List.forall₂_same]
      exact fun t _ => ⟨rfl, List.nil_subset _⟩
    have hpost : Forall₂ (SameToken (· ⊆ ·)) (source post) (source post) :=
      List.forall₂_same.2 fun _ _ => ⟨rfl, List.Subset.refl _⟩
    rw [waiting_withWaiting, waiting_ofList, ho, source, List.map_append]
    exact List.rel_append hbody hpost

end Lowering

open Lowering

/-- **An invocation in place is its body.** If a lowering comes to the token `inv` of its source,
and this invokes a macro, then its source has the same programs as the source with the body of the
macro instead. And whatever error it has, the source with the body has the same one, unless it is a
recursion. -/
theorem lower_inPlace_body {verify : Bool} {pre post : List Token} {inv : Token} {name : String}
    {body : MacroBody} {mvs : List Move} {s : Lowering}
    (hpath : Path ⟨.inPlace, none, verify⟩ (start (pre ++ inv :: post)) mvs s)
    (hq : s.waiting = source (inv :: post)) (hm : s.macros.invoked? inv.word = some (name, body)) :
    (∀ p, (lower ⟨.inPlace, none, verify⟩ (pre ++ inv :: post)).result = .ok p ↔
      (lower ⟨.inPlace, none, verify⟩ (pre ++ body.tokens ++ post)).result = .ok p) ∧
    ∀ e, (∀ location name, e ≠ .recursiveMacro location name) →
      (lower ⟨.inPlace, none, verify⟩ (pre ++ inv :: post)).result = .error e →
      (lower ⟨.inPlace, none, verify⟩ (pre ++ body.tokens ++ post)).result = .error e := by
  have hstep : Step ⟨.inPlace, none, verify⟩ s _ _ :=
    .expand hq hm List.not_mem_nil (allows_of_limit_none rfl _)
  have hpath₁ := hpath.append (.single hstep)
  have hpath₂ := hpath.replace_source rfl hq (body.tokens ++ post)
  have hlike := hstep.like_body rfl hq
  rw [List.append_assoc, lower, lower, run_of_path hpath₁, run_of_path hpath₂]
  have hsame := hlike.run_result (o := ⟨.inPlace, none, verify⟩) rfl
  refine ⟨fun p => ⟨fun hok => ?_, fun hok => ?_⟩, fun e hrecursive herror => ?_⟩
  · refine (hsame _ _ fun location name h => ?_).trans hok
    cases hok.symm.trans h
  · exact (hsame _ _ (hlike.not_recursive rfl hpath₁ hok)).symm.trans hok
  · refine (hsame _ _ fun location name h => ?_).trans herror
    cases herror.symm.trans h
    exact hrecursive location name rfl

/-- `macro f if 1 end 2 f end`, where the body of `f` opens a block that the source closes. -/
theorem lower_inPlace_body_block :
    let o : Options := ⟨.inPlace, none, true⟩
    let pre : List Token := [⟨⟨"a", 0⟩, .identifier "macro"⟩, ⟨⟨"a", 0⟩, .identifier "f"⟩,
      ⟨⟨"a", 0⟩, .identifier "if"⟩, ⟨⟨"a", 0⟩, .intLiteral 1⟩, ⟨⟨"a", 0⟩, .identifier "end"⟩,
      ⟨⟨"a", 1⟩, .intLiteral 2⟩]
    let inv : Token := ⟨⟨"a", 2⟩, .identifier "f"⟩
    let post : List Token := [⟨⟨"a", 3⟩, .identifier "end"⟩]
    let p : Program := ⟨#[.pushInt 2 ⟨"a", 1⟩, ⟨.ifBlock, none, some 3, ⟨"a", 0⟩⟩,
      .pushInt 1 ⟨"a", 0⟩, ⟨.endBlock, none, some 4, ⟨"a", 3⟩⟩]⟩
    ∃ mvs s body, Path o (start (pre ++ inv :: post)) mvs s ∧ s.waiting = source (inv :: post) ∧
      s.macros.invoked? inv.word = some ("f", body) ∧
      body.tokens = [⟨⟨"a", 0⟩, .identifier "if"⟩, ⟨⟨"a", 0⟩, .intLiteral 1⟩] ∧
      (lower o (pre ++ inv :: post)).result = .ok p ∧
      (lower o (pre ++ body.tokens ++ post)).result = .ok p := by
  intro o pre inv post p
  have hpath : ∃ mvs s, Path o (start (pre ++ inv :: post)) mvs s ∧ s.waiting = [] ∧
      s.assembly.finish = .ok p :=
    ⟨_, _, .cons (.define rfl rfl rfl rfl rfl) (.cons (.emit rfl rfl rfl nofun rfl)
      (.cons (.expand rfl rfl (by decide) nofun) (.cons (.emit rfl rfl rfl nofun rfl)
        (.cons (.emit rfl rfl rfl nofun rfl) (.cons (.emit rfl rfl rfl nofun rfl) (.nil _)))))),
      rfl, rfl⟩
  obtain ⟨mvs, s, hpath, hend, hfinish⟩ := hpath
  have hlower : (lower o (pre ++ inv :: post)).result = .ok p := run_ok_of_path hpath hend hfinish
  have hinv : ∃ mvs s body, Path o (start (pre ++ inv :: post)) mvs s ∧
      s.waiting = source (inv :: post) ∧ s.macros.invoked? inv.word = some ("f", body) ∧
      body.tokens = [⟨⟨"a", 0⟩, .identifier "if"⟩, ⟨⟨"a", 0⟩, .intLiteral 1⟩] :=
    ⟨_, _, _, .cons (.define rfl rfl rfl rfl rfl) (.cons (.emit rfl rfl rfl nofun rfl) (.nil _)),
      rfl, rfl, rfl⟩
  obtain ⟨mvs₁, s₁, body, hpath₁, hq, hm, hbody⟩ := hinv
  exact ⟨mvs₁, s₁, body, hpath₁, hq, hm, hbody, hlower,
    ((lower_inPlace_body hpath₁ hq hm).1 p).1 hlower⟩

end StackLang
