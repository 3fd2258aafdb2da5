import Mathlib.Logic.Relation
import StackLang.Proofs.Lowering.Fault
import StackLang.Proofs.Lowering.Unchecked

/-!
# Rejecting recursion

A macro that is invoked inside its own expansion is an error. **Theorem (`recursiveMacro_sound`).**
Such a macro reaches itself in the graph of which body mentions which macro, and without the test
no program would have come of the source, whatever the limit.

The trail of a waiting token is a path in the graph (`ComesFrom`), which gives the first part. For
the second part it is shown that the invocation leads to itself once more:

- *Bodies last.* Where a token of a body is next in line, the source has been read. No `end` is
  left, so the table never changes again, and a macro on a cycle of the graph leaves another one
  behind.
- *Bodies in place.* The tokens that came from an expansion of `a` wait in front of all others, and
  no definition can have happened since the invocation: it would have taken all of them, because
  no `end` is among them. So they are what the word `a` unfolds to with the present table
  (`Unfolds`), and as they begin with `a` again, so it goes on for ever.
-/

namespace StackLang.Lowering

open Relation

/-- The body of the macro `a` mentions the macro `b`. -/
def Mentions (m : MacroTable MacroBody) (a b : String) : Prop :=
  ∃ body t, m.invoked? (.identifier a) = some (a, body) ∧ t ∈ body.tokens ∧
    t.word = .identifier b ∧ b ∈ m.names

variable {m m' : MacroTable MacroBody} {o : Options} {s s' : Lowering} {mvs : List Move}
  {mv : Move} {p : Program} {a b name : String} {location : Location}

/-! ## Trails -/

/-- A token is one of the source, or of the body of a macro that such a token invokes; the trail
has the names of these macros. -/
inductive ComesFrom (m : MacroTable MacroBody) : Token → List String → Prop
  | source (t : Token) : ComesFrom m t []
  | body {t u : Token} {name : String} {body : MacroBody} {trail : List String}
      (hm : m.invoked? u.word = some (name, body)) (ht : t ∈ body.tokens)
      (hu : ComesFrom m u trail) : ComesFrom m t (name :: trail)

theorem ComesFrom.mono (h : m.Extends m') {t : Token} {trail : List String}
    (ht : ComesFrom m t trail) : ComesFrom m' t trail := by
  induction ht with
  | source t => exact .source t
  | body hm ht _ ih => exact .body (h _ _ hm) ht ih

/-- No token of a body is an `end`. -/
theorem ComesFrom.isEnd_eq_false {t : Token} {trail : List String} (h : ComesFrom m t trail)
    (htrail : trail ≠ []) : t.isEnd = false := by
  cases h with
  | source => exact absurd rfl htrail
  | @body _ _ _ body _ _ ht _ => exact body.endFree t ht

/-- **Trails are paths.** Every macro in the trail of a word leads to the macro that the word
invokes. -/
theorem ComesFrom.transGen {t : Token} {trail : List String} (h : ComesFrom m t trail)
    (hword : t.word = .identifier b) (hb : b ∈ m.names) (ha : a ∈ trail) :
    TransGen (Mentions m) a b := by
  induction h generalizing b with
  | source => cases ha
  | @body t u name body trail hm ht _ ih =>
    have hu : u.word = .identifier name := MacroTable.word_of_invoked? hm
    have hlast : Mentions m name b := ⟨body, t, hu ▸ hm, ht, hword, hb⟩
    rcases List.mem_cons.1 ha with rfl | ha
    · exact .single hlast
    · exact (ih hu (MacroTable.mem_names_of_invoked? hm) ha).tail hlast

theorem exists_token_of_mem_start {ts : List Token} {i : Pending}
    (h : i ∈ (start ts).waiting) : ∃ t, i = ⟨t, []⟩ := by
  rw [waiting_start] at h
  obtain ⟨t, -, rfl⟩ := List.mem_map.1 h
  exact ⟨t, rfl⟩

/-- Every waiting token comes from where its trail says. -/
def Traced (s : Lowering) : Prop :=
  ∀ i ∈ s.waiting, ComesFrom s.macros i.token i.trail

theorem traced_start (ts : List Token) : (start ts).Traced := by
  intro i hi
  obtain ⟨t, rfl⟩ := exists_token_of_mem_start hi
  exact .source t

theorem Step.traced (h : Step o s mv s') (hs : s.Traced) : s'.Traced := by
  intro j hj
  have hgrows := (Path.single h).extends
  rcases h.mem_waiting hj with hj | ⟨i, hi, name, body, hm, -, hj⟩
  · exact (hs j hj).mono hgrows
  · obtain ⟨ht, htrail⟩ := MacroBody.of_mem_pending hj
    rw [htrail]
    exact .body (hgrows _ _ hm) ht ((hs i hi).mono hgrows)

theorem Path.traced (h : Path o s mvs s') (hs : s.Traced) : s'.Traced :=
  h.invariant (fun _ _ _ hs hstep => hstep.traced hs) hs

/-! ## The error -/

theorem operation_ne_recursive (t : Token) :
    t.operation ≠ .error (.recursiveMacro location name) := by
  intro h
  obtain ⟨word, -, -, he⟩ := Token.operation_eq_error h
  cases he

theorem checkName_ne_recursive (m : MacroTable MacroBody) (t : Token) :
    m.checkName t ≠ .error (.recursiveMacro location name) := by
  intro h
  have hrefusal := MacroTable.checkName_eq_error_iff.1 h
  cases hrefusal

theorem place_ne_recursive (c : Assembly) (op : Operation) :
    c.place op ≠ .error (.recursiveMacro location name) := by
  intro h
  have hmisfit := Assembly.place_eq_error_iff.1 h
  generalize c.openers = words at hmisfit
  cases hmisfit

theorem finish_ne_recursive (c : Assembly) : c.finish ≠ .error (.recursiveMacro location name) := by
  intro h
  obtain ⟨block, outer, -, he⟩ := Assembly.finish_eq_error_iff.1 h
  cases he

/-- A recursion is reported at a token that invokes a macro of its trail. -/
theorem Fails.recursive (h : Fails o s (.recursiveMacro location name)) :
    ∃ i rest body, s.waiting = i :: rest ∧ s.macros.invoked? i.token.word = some (name, body) ∧
      name ∈ i.trail := by
  have hfault := fails_iff.1 h
  generalize he : CompileError.recursiveMacro location name = e at hfault
  cases hfault with
  | @recursive i rest name' body hq hm hmem => cases he; exact ⟨i, rest, body, hq, hm, hmem⟩
  | limit => cases he
  | @operation i _ _ _ _ hop => subst he; exact absurd hop (operation_ne_recursive i.token)
  | @place _ _ op _ _ _ _ _ hplace => subst he; exact absurd hplace (place_ne_recursive _ op)
  | noName => cases he
  | @name _ j _ _ _ _ _ hname => subst he; exact absurd hname (checkName_ne_recursive _ j.token)
  | unfinished => cases he

/-! ## Cycles -/

/-- The word of a macro that reaches itself. -/
def Cyclic (m : MacroTable MacroBody) (w : Word) : Prop :=
  ∃ a, w = .identifier a ∧ TransGen (Mentions m) a a

/-- The body of a macro that reaches itself has a word of the same kind. -/
theorem Cyclic.exists_mem {w : Word} (h : Cyclic m w) :
    ∃ e, m.invoked? w = some e ∧ ∃ t ∈ e.2.tokens, Cyclic m t.word := by
  obtain ⟨a, rfl, ha⟩ := h
  obtain ⟨b, hab, hba⟩ := TransGen.head'_iff.1 ha
  obtain ⟨body, t, hm, ht, hword, -⟩ := id hab
  exact ⟨(a, body), hm, t, ht, b, hword, TransGen.tail' hba hab⟩

/-! ## Bodies that run last -/

/-- Tokens of the source wait in front of those of bodies. -/
def SourceFirst (s : Lowering) : Prop :=
  ∃ front back, s.waiting = front ++ back ∧ (∀ i ∈ front, i.trail = []) ∧
    ∀ i ∈ back, i.trail ≠ []

theorem sourceFirst_start (ts : List Token) : (start ts).SourceFirst := by
  refine ⟨(start ts).waiting, [], (List.append_nil _).symm, ?_, nofun⟩
  intro i hi
  obtain ⟨t, rfl⟩ := exists_token_of_mem_start hi
  rfl

theorem Step.sourceFirst (ho : o.placement = .tail) (h : Step o s mv s') (ht : s.Traced)
    (hs : s.SourceFirst) : s'.SourceFirst := by
  obtain ⟨front, back, hwaiting, hfront, hback⟩ := hs
  cases h with
  | @emit i rest op a hq hm hop hne hplace =>
    rw [hq] at hwaiting
    cases front with
    | nil =>
      obtain rfl : i :: rest = back := hwaiting
      exact ⟨[], rest, rfl, nofun, fun j hj => hback j (List.mem_cons_of_mem i hj)⟩
    | cons i' front =>
      obtain ⟨rfl, rfl⟩ := List.cons.inj hwaiting
      exact ⟨front, back, rfl, fun j hj => hfront j (List.mem_cons_of_mem i hj), hback⟩
  | @expand i rest name body hq hm hfree hlimit =>
    have hback' : ∀ j ∈ back ++ body.pending name i.trail, j.trail ≠ [] :=
      fun j hj => (List.mem_append.1 hj).elim (hback j) MacroBody.trail_ne_nil
    rw [hq] at hwaiting
    rw [ho]
    cases front with
    | nil =>
      obtain rfl : i :: rest = back := hwaiting
      exact ⟨[], rest ++ body.pending name i.trail, rfl, nofun,
        fun j hj => hback' j (List.mem_cons_of_mem i hj)⟩
    | cons i' front =>
      obtain ⟨rfl, rfl⟩ := List.cons.inj hwaiting
      exact ⟨front, back ++ body.pending name i.trail, List.append_assoc ..,
        fun j hj => hfront j (List.mem_cons_of_mem i hj), hback'⟩
  | @define i j rest rest' name body hq hm hkey hname hcut =>
    obtain ⟨inner, close, rfl, hclose, -⟩ := MacroBody.eq_of_cut? hcut
    have hsplit : front ++ back = (i :: j :: inner) ++ close :: rest' := hwaiting.symm.trans hq
    rcases eq_append_of_append hsplit with ⟨front', rfl, rfl⟩ | ⟨w', rfl⟩
    · exact ⟨front', back, rfl, fun k hk => hfront k (by simp [hk]), hback⟩
    · -- an `end` among the tokens of bodies
      have hmem : close ∈ s.waiting := by simp [hwaiting]
      have hfalse := (ht close hmem).isEnd_eq_false (hback close (by simp))
      cases hfalse.symm.trans hclose

/-- A lowering that runs bodies last, and that has no `end` waiting but a macro that reaches
itself, never returns a program without the test. -/
theorem not_ok_of_cyclic (ho : o.placement = .tail) (hfree : EndFree s.waiting)
    (hs : ∃ i ∈ s.waiting, Cyclic s.macros i.token.word) : ¬ EndsUnchecked o s (.ok p) := by
  refine EndsUnchecked.not_ok
    (I := fun s => EndFree s.waiting ∧ ∃ i ∈ s.waiting, Cyclic s.macros i.token.word)
    ?_ ?_ ⟨hfree, hs⟩
  · rintro s ⟨-, i, hi, -⟩ hnil
    rw [hnil] at hi
    cases hi
  · rintro s i queue s' event ⟨hfree, k, hk, hcyclic⟩ hq hadv
    obtain ⟨e, he, t, ht, ht'⟩ := hcyclic.exists_mem
    rw [hq] at hfree hk
    rcases cases_of_advanceUnchecked hq hadv with ⟨mv, hstep, hnone⟩ | ⟨name, body, hsome, -, rfl⟩
    · have hk' : k ∈ queue.toList := by
        rcases List.mem_cons.1 hk with rfl | hk
        · cases hnone.symm.trans he
        · exact hk
      cases hstep with
      | emit hq' =>
        obtain ⟨rfl, rfl⟩ := List.cons.inj (hq.symm.trans hq')
        exact ⟨hfree.tail, k, hk', hcyclic⟩
      | expand hq' hm =>
        obtain ⟨rfl, -⟩ := List.cons.inj (hq.symm.trans hq')
        cases hnone.symm.trans hm
      | @define i' j rest rest' name body hq' hm hkey hname hcut =>
        obtain ⟨rfl, htail⟩ := List.cons.inj (hq.symm.trans hq')
        have hrest := hfree.tail
        rw [htail] at hrest
        cases (MacroBody.cut?_eq_none_iff.2 hrest.tail).symm.trans hcut
    · rw [ho]
      refine ⟨hfree.tail.append (body.endFree_pending name i.trail), ?_⟩
      rcases List.mem_cons.1 hk with rfl | hk
      · cases hsome.symm.trans he
        exact ⟨⟨t, name :: k.trail⟩, List.mem_append_right _ (List.mem_map.2 ⟨t, ht, rfl⟩), ht'⟩
      · exact ⟨k, List.mem_append_left _ hk, hcyclic⟩

/-! ## Bodies that run in place -/

/-- The words of waiting tokens. -/
def words (w : List Pending) : List Word :=
  w.map (·.token.word)

/-- The first of some words is passed over, or it is replaced by the body of the macro that it
invokes. -/
inductive Unfold (m : MacroTable MacroBody) : List Word → List Word → Prop
  | pass {w : Word} {ws : List Word} (hm : m.invoked? w = none) (hkey : w ≠ .identifier "macro") :
      Unfold m (w :: ws) ws
  | expand {w : Word} {ws : List Word} {name : String} {body : MacroBody}
      (hm : m.invoked? w = some (name, body)) :
      Unfold m (w :: ws) (body.tokens.map (·.word) ++ ws)

theorem Unfold.append {ws ws' : List Word} (h : Unfold m ws ws') (x : List Word) :
    Unfold m (ws ++ x) (ws' ++ x) := by
  cases h with
  | pass hm hkey => exact .pass hm hkey
  | expand hm =>
    rw [List.append_assoc]
    exact .expand hm

theorem words_pending (body : MacroBody) (name : String) (trail : List String)
    (rest : List Pending) :
    words (body.pending name trail ++ rest) = body.tokens.map (·.word) ++ words rest := by
  simp [words, MacroBody.pending]

/-- **What unfolds to itself unfolds for ever**: if words unfold to some that begin with `w`, and
`w` unfolds to such words, then there is a next step, and the same is true after it. -/
theorem exists_unfold_of_replay {w : Word} {ws x r : List Word}
    (hloop : TransGen (Unfold m) [w] (w :: r)) (h : ReflTransGen (Unfold m) ws (w :: x)) :
    ∃ ws' x', Unfold m ws ws' ∧ ReflTransGen (Unfold m) ws' (w :: x') := by
  rcases h.cases_head with rfl | ⟨ws', hstep, hrest⟩
  · have hlift : TransGen (Unfold m) ([w] ++ x) ((w :: r) ++ x) :=
      hloop.lift (· ++ x) fun _ _ hstep => hstep.append x
    obtain ⟨ws', hstep, hrest⟩ := TransGen.head'_iff.1 hlift
    exact ⟨ws', r ++ x, hstep, hrest⟩
  · exact ⟨ws', x, hstep, hrest⟩

/-- The tokens that came from an expansion of `a` wait in front of all others, and the word `a`
unfolds to them with the present table. -/
def Unfolds (s : Lowering) (a : String) : Prop :=
  ∃ front back, s.waiting = front ++ back ∧ (∀ i ∈ front, a ∈ i.trail) ∧
    (∀ i ∈ back, a ∉ i.trail) ∧
    (front ≠ [] → TransGen (Unfold s.macros) [.identifier a] (words front))

theorem unfolds_start (ts : List Token) (a : String) : (start ts).Unfolds a := by
  refine ⟨[], (start ts).waiting, rfl, nofun, ?_, fun h => absurd rfl h⟩
  intro i hi
  obtain ⟨t, rfl⟩ := exists_token_of_mem_start hi
  exact List.not_mem_nil

theorem Step.unfolds (ho : o.placement = .inPlace) (h : Step o s mv s') (ht : s.Traced)
    (hs : s.Unfolds a) : s'.Unfolds a := by
  obtain ⟨front, back, hwaiting, hfront, hback, hunfold⟩ := hs
  cases h with
  | @emit i rest op b hq hm hop hne hplace =>
    rw [hq] at hwaiting
    cases front with
    | nil =>
      obtain rfl : i :: rest = back := hwaiting
      exact ⟨[], rest, rfl, nofun, fun j hj => hback j (List.mem_cons_of_mem i hj),
        fun h => absurd rfl h⟩
    | cons i' front =>
      obtain ⟨rfl, rfl⟩ := List.cons.inj hwaiting
      refine ⟨front, back, rfl, fun j hj => hfront j (List.mem_cons_of_mem i hj), hback,
        fun _ => ?_⟩
      exact (hunfold (List.cons_ne_nil _ _)).tail (.pass hm (Token.word_ne_macroWord hop hne))
  | @expand i rest name body hq hm hfree hlimit =>
    rw [hq] at hwaiting
    rw [ho]
    cases front with
    | nil =>
      obtain rfl : i :: rest = back := hwaiting
      have hi := hback i List.mem_cons_self
      by_cases hname : a = name
      · -- the expansion of `a` begins
        subst hname
        refine ⟨body.pending a i.trail, rest, rfl, fun j hj => ?_,
          fun j hj => hback j (List.mem_cons_of_mem i hj), fun _ => .single ?_⟩
        · rw [(MacroBody.of_mem_pending hj).2]
          exact List.mem_cons_self
        · have hstep : Unfold s.macros (.identifier a :: []) (body.tokens.map (·.word) ++ []) :=
            .expand (MacroTable.word_of_invoked? hm ▸ hm)
          rw [← List.append_nil (body.pending a i.trail), words_pending]
          exact hstep
      · refine ⟨[], body.pending name i.trail ++ rest, rfl, nofun, fun j hj => ?_,
          fun h => absurd rfl h⟩
        rcases List.mem_append.1 hj with hj | hj
        · rw [(MacroBody.of_mem_pending hj).2]
          exact fun hmem => (List.mem_cons.1 hmem).elim hname hi
        · exact hback j (List.mem_cons_of_mem i hj)
    | cons i' front =>
      obtain ⟨rfl, rfl⟩ := List.cons.inj hwaiting
      refine ⟨body.pending name i.trail ++ front, back, (List.append_assoc ..).symm,
        fun j hj => ?_, hback, fun _ => ?_⟩
      · rcases List.mem_append.1 hj with hj | hj
        · rw [(MacroBody.of_mem_pending hj).2]
          exact List.mem_cons_of_mem name (hfront i List.mem_cons_self)
        · exact hfront j (List.mem_cons_of_mem i hj)
      · rw [words_pending]
        exact (hunfold (List.cons_ne_nil _ _)).tail (.expand hm)
  | @define i j rest rest' name body hq hm hkey hname hcut =>
    obtain ⟨inner, close, rfl, hclose, -⟩ := MacroBody.eq_of_cut? hcut
    have hsplit : front ++ back = (i :: j :: inner) ++ close :: rest' := hwaiting.symm.trans hq
    rcases eq_append_of_append hsplit with ⟨front', rfl, rfl⟩ | ⟨w', rfl⟩
    · -- an `end` among the tokens of bodies
      have hmem : close ∈ s.waiting := by simp [hwaiting]
      have htrail : close.trail ≠ [] := List.ne_nil_of_mem (hfront close (by simp))
      cases ((ht close hmem).isEnd_eq_false htrail).symm.trans hclose
    · -- the definition takes all that came from `a`
      exact ⟨[], rest', rfl, nofun, fun k hk => hback k (by simp [hk]), fun h => absurd rfl h⟩

/-- A lowering in place that has come to words that unfold to themselves never returns a program
without the test. -/
theorem not_ok_of_replay (ho : o.placement = .inPlace) {w : Word} {r x : List Word}
    (hloop : TransGen (Unfold s.macros) [w] (w :: r))
    (hs : ReflTransGen (Unfold s.macros) (words s.waiting) (w :: x)) :
    ¬ EndsUnchecked o s (.ok p) := by
  refine EndsUnchecked.not_ok
    (I := fun s => TransGen (Unfold s.macros) [w] (w :: r) ∧
      ∃ x, ReflTransGen (Unfold s.macros) (words s.waiting) (w :: x)) ?_ ?_ ⟨hloop, x, hs⟩
  · rintro s ⟨hloop, x, hs⟩ hnil
    obtain ⟨ws', -, hstep, -⟩ := exists_unfold_of_replay hloop hs
    rw [hnil] at hstep
    cases hstep
  · rintro s i queue s' event ⟨hloop, x, hs⟩ hq hadv
    obtain ⟨ws', x', hunfold, hrest⟩ := exists_unfold_of_replay hloop hs
    rw [hq] at hunfold
    -- the step is the unfolding
    have hstep : s'.macros = s.macros ∧ words s'.waiting = ws' := by
      rcases cases_of_advanceUnchecked hq hadv with ⟨mv, hstep, hnone⟩ | ⟨name, body, hsome, -, rfl⟩
      · cases hunfold with
        | expand hm => cases hnone.symm.trans hm
        | pass hm hkey =>
          cases hstep with
          | emit hq' =>
            obtain ⟨rfl, rfl⟩ := List.cons.inj (hq.symm.trans hq')
            exact ⟨rfl, rfl⟩
          | expand hq' hm' =>
            obtain ⟨rfl, -⟩ := List.cons.inj (hq.symm.trans hq')
            cases hnone.symm.trans hm'
          | define hq' _ hkey' =>
            obtain ⟨rfl, -⟩ := List.cons.inj (hq.symm.trans hq')
            exact absurd hkey' hkey
      · cases hunfold with
        | pass hm => cases hsome.symm.trans hm
        | expand hm =>
          cases hsome.symm.trans hm
          rw [ho]
          exact ⟨rfl, words_pending ..⟩
    rw [hstep.1, hstep.2]
    exact ⟨hloop, x', hrest⟩

/-! ## No program is rejected -/

/-- **Where a recursion is reported, no program would have come of the state**, whatever the limit.
-/
theorem not_ok_of_recursive {o' : Options} {ts : List Token} (ho : o'.placement = o.placement)
    (hpath : Path o (start ts) mvs s) (h : Fails o s (.recursiveMacro location name)) :
    ¬ EndsUnchecked o' s (.ok p) := by
  obtain ⟨i, rest, body, hq, hm, hmem⟩ := h.recursive
  have ht : s.Traced := hpath.traced (traced_start ts)
  have hword := MacroTable.word_of_invoked? hm
  cases hplacement : o.placement with
  | tail =>
    have hs : s.SourceFirst := by
      refine (hpath.invariant (I := fun s => s.Traced ∧ s.SourceFirst) ?_
        ⟨traced_start ts, sourceFirst_start ts⟩).2
      exact fun _ _ _ hs hstep => ⟨hstep.traced hs.1, hstep.sourceFirst hplacement hs.1 hs.2⟩
    obtain ⟨front, back, hwaiting, hfront, hback⟩ := hs
    have hnil : front = [] := by
      cases front with
      | nil => rfl
      | cons j front =>
        rw [hq] at hwaiting
        obtain ⟨rfl, -⟩ := List.cons.inj hwaiting
        rw [hfront i List.mem_cons_self] at hmem
        cases hmem
    have hfree : EndFree s.waiting := by
      intro j hj
      refine (ht j hj).isEnd_eq_false (hback j ?_)
      rw [hwaiting, hnil] at hj
      exact hj
    have hi : i ∈ s.waiting := hq ▸ List.mem_cons_self
    have hcycle : TransGen (Mentions s.macros) name name :=
      (ht i hi).transGen hword (MacroTable.mem_names_of_invoked? hm) hmem
    exact not_ok_of_cyclic (ho.trans hplacement) hfree ⟨i, hi, name, hword, hcycle⟩
  | inPlace =>
    have hs : s.Unfolds name := by
      refine (hpath.invariant (I := fun s => s.Traced ∧ s.Unfolds name) ?_
        ⟨traced_start ts, unfolds_start ts name⟩).2
      exact fun _ _ _ hs hstep => ⟨hstep.traced hs.1, hstep.unfolds hplacement hs.1 hs.2⟩
    obtain ⟨front, back, hwaiting, hfront, hback, hunfold⟩ := hs
    cases front with
    | nil =>
      rw [hq] at hwaiting
      obtain rfl : i :: rest = back := hwaiting
      exact absurd hmem (hback i List.mem_cons_self)
    | cons j front =>
      rw [hq] at hwaiting
      obtain ⟨rfl, rfl⟩ := List.cons.inj hwaiting
      have hloop := hunfold (List.cons_ne_nil _ _)
      rw [words, List.map_cons, hword] at hloop
      refine not_ok_of_replay (ho.trans hplacement) hloop (x := words (front ++ back)) ?_
      rw [hq, words, List.map_cons, hword]
      exact .refl

/-- **The test for recursion rejects no program.** If a macro is reported as recursive, then it
reaches itself in the graph of mentions, and without the test the source has no program: with a
limit it ends with an error, and without one it does not end with a program either. So where the
graph has no cycle no recursion is reported. -/
theorem recursiveMacro_sound (o : Options) (ts : List Token) :
    (∀ location name, (lower o ts).result = .error (.recursiveMacro location name) →
      TransGen (Mentions (finalMacros o ts)) name name ∧
      (∀ limit, ∃ e, EndsUnchecked { o with limit := some limit } (start ts) (.error e)) ∧
      ∀ limit p, ¬ EndsUnchecked { o with limit } (start ts) (.ok p)) ∧
    ((∀ name, ¬ TransGen (Mentions (finalMacros o ts)) name name) →
      ∀ location name, (lower o ts).result ≠ .error (.recursiveMacro location name)) := by
  have hmain : ∀ location name, (lower o ts).result = .error (.recursiveMacro location name) →
      TransGen (Mentions (finalMacros o ts)) name name ∧
      ∀ limit p, ¬ EndsUnchecked { o with limit } (start ts) (.ok p) := by
    intro location name h
    obtain ⟨mvs, hpath, hfails | ⟨-, hfinish⟩⟩ := path_of_run_error h
    · obtain ⟨i, rest, body, hq, hm, hmem⟩ := hfails.recursive
      have hi := hpath.traced (traced_start ts) i (hq ▸ List.mem_cons_self)
      refine ⟨hi.transGen (MacroTable.word_of_invoked? hm) (MacroTable.mem_names_of_invoked? hm)
        hmem, fun limit p hends => ?_⟩
      have hlast := hends.of_path (by rfl) hpath
      exact not_ok_of_recursive (by rfl) hpath hfails hlast
    · exact absurd hfinish (finish_ne_recursive _)
  refine ⟨fun location name h => ?_, fun hacyclic location name h => ?_⟩
  · obtain ⟨hcycle, hnever⟩ := hmain location name h
    refine ⟨hcycle, fun limit => ?_, hnever⟩
    obtain ⟨r, hr⟩ :=
      exists_ends_of_limit (o := { o with limit := some limit }) rfl (start ts)
    cases r with
    | error e => exact ⟨e, hr⟩
    | ok p => exact absurd hr (hnever (some limit) p)
  · exact hacyclic name (hmain location name h).1

/-- `macro f f end f`, in which the second invocation of `f` is inside the first. -/
theorem recursiveMacro_sound_self :
    let o : Options := ⟨.inPlace, none, true⟩
    let ts : List Token := [⟨⟨"a", 0⟩, .identifier "macro"⟩, ⟨⟨"a", 0⟩, .identifier "f"⟩,
      ⟨⟨"a", 0⟩, .identifier "f"⟩, ⟨⟨"a", 0⟩, .identifier "end"⟩, ⟨⟨"a", 1⟩, .identifier "f"⟩]
    (lower o ts).result = .error (.recursiveMacro ⟨"a", 0⟩ "f") ∧
      TransGen (Mentions (finalMacros o ts)) "f" "f" ∧
      (∀ limit, ∃ e, EndsUnchecked { o with limit := some limit } (start ts) (.error e)) ∧
      ∀ limit p, ¬ EndsUnchecked { o with limit } (start ts) (.ok p) := by
  intro o ts
  have hpath : ∃ mvs s, Path o (start ts) mvs s ∧ Fails o s (.recursiveMacro ⟨"a", 0⟩ "f") :=
    ⟨_, _, .cons (.define rfl rfl rfl rfl rfl) (.cons (.expand rfl rfl (by decide) nofun) (.nil _)),
      _, .ofList [], rfl, rfl⟩
  obtain ⟨mvs, s, hpath, hfails⟩ := hpath
  have hlower : (lower o ts).result = .error (.recursiveMacro ⟨"a", 0⟩ "f") := by
    rw [lower, run_of_path hpath, run_of_fails hfails]
  exact ⟨hlower, (recursiveMacro_sound o ts).1 _ _ hlower⟩

end StackLang.Lowering
