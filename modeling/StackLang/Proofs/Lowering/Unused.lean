import StackLang.Proofs.Lowering.Frame
import StackLang.Proofs.Lowering.Origin
import StackLang.Proofs.Lowering.Termination
import StackLang.Proofs.Word

/-!
# Definitions that are not used

A definition adds a macro to the table and does nothing else. If no token of a source has the name
of the macro, then nothing ever asks for it.

**Theorem (`lower_unused`).** A definition whose name does not occur can be put into a source, or
taken out of it, wherever the lowering comes to it, and the result is the same, whatever the body.

Two facts are behind this. The way to the place of the definition does not depend on what is there
(`Path.exists_replace_source`), also when bodies run last and some of them already wait behind it.
And from there on the two lowerings go side by side (`AgreesBut.step`, `AgreesBut.fails`): their
tables agree on all words but the name, and no token that ever waits is the name, because every one
of them comes from the source (`Sourced`).
-/

namespace StackLang

namespace Lowering

variable {o : Options} {s s' t t' : Lowering} {mv : Move} {mvs : List Move} {i : Pending}
  {w x back queued : List Pending} {ts : List Token} {e : CompileError} {n : String}

/-! ## The way to a place in the source -/

/-- What waits behind the rest of the source when bodies run last. -/
structure Queued (back : List Pending) : Prop where
  endFree : EndFree back
  trail : ∀ i ∈ back, i.trail ≠ []

theorem queued_nil : Queued [] :=
  ⟨nofun, nofun⟩

theorem Queued.append_pending (h : Queued back) (body : MacroBody) (name : String)
    (trail : List String) : Queued (back ++ body.pending name trail) := by
  refine ⟨h.endFree.append (body.endFree_pending name trail), fun j hj => ?_⟩
  exact (List.mem_append.1 hj).elim (h.trail j) MacroBody.trail_ne_nil

/-- **A step that runs bodies last keeps to the front as well.** It leaves alone what waits behind
the tokens `w`, but for a body that it puts at the end, or else it is a definition that reaches into
the tokens `x`. -/
theorem Step.frame_tail (ho : o.placement = .tail) (h : Step o s mv s') (hback : Queued back)
    (hq : s.waiting = i :: w ++ x ++ back) :
    (∃ w' back', w' ⊆ w ∧ Queued back' ∧ s'.waiting = w' ++ x ++ back' ∧
      ∀ y, Step o (s.withWaiting (i :: w ++ y ++ back)) mv
        (s'.withWaiting (w' ++ y ++ back'))) ∨
    unread s'.waiting < x.length := by
  cases h with
  | @emit _ rest op a hq' hm hop hne hplace =>
    cases hq.symm.trans hq'
    exact .inl ⟨w, back, List.Subset.refl w, hback, rfl, fun y => .emit rfl hm hop hne hplace⟩
  | @expand _ rest name body hq' hm hfree hlimit =>
    cases hq.symm.trans hq'
    have hmerge (y : List Pending) :
        merge o.placement (w ++ y ++ back) (body.pending name i.trail) =
          w ++ y ++ (back ++ body.pending name i.trail) := by
      rw [ho]
      exact List.append_assoc ..
    refine .inl ⟨w, _, List.Subset.refl w, hback.append_pending body name i.trail, hmerge x,
      fun y => ?_⟩
    rw [← hmerge y]
    exact .expand rfl hm hfree hlimit
  | @define _ j rest rest' name body hq' hm hkey hname hcut =>
    obtain ⟨inner, close, rfl, hclose, hb⟩ := MacroBody.eq_of_cut? hcut
    obtain ⟨rfl, htail⟩ := List.cons.inj (hq.symm.trans hq')
    have hsplit : w ++ x ++ back = (j :: inner) ++ close :: rest' := htail
    rcases eq_append_of_append hsplit with ⟨front, hfront, rfl⟩ | ⟨skipped, rfl⟩
    · rcases eq_append_of_append hfront with ⟨w', rfl, rfl⟩ | ⟨skipped, rfl⟩
      · refine .inl ⟨w', back, ?_, hback, rfl, fun y => ?_⟩
        · intro k hk
          exact List.mem_append_right _ (List.mem_cons_of_mem close hk)
        · have hcut' : MacroBody.cut? (inner ++ close :: (w' ++ y ++ back)) =
              some (body, w' ++ y ++ back) := MacroBody.cut?_of_append hclose hb
          refine .define ?_ hm hkey hname hcut'
          simp only [waiting_withWaiting, List.cons_append, List.append_assoc]
      · refine .inr ?_
        have hlength : unread front ≤ front.length := List.countP_le_length
        rw [waiting_ofList, unread_append, unread_eq_zero hback.trail, List.length_append,
          List.length_cons]
        omega
    · -- no body holds an `end`
      cases (hback.endFree close (by simp)).symm.trans hclose

/-- **The way to the rest of a source does not depend on it**, when bodies run last. -/
theorem Path.exists_replace_tail (ho : o.placement = .tail) (h : Path o s mvs s')
    (hw : ∀ i ∈ w, i.trail = []) (hback : Queued back)
    (hq : s.waiting = w ++ source ts ++ back) (hq' : s'.waiting = source ts ++ queued)
    (hqueued : ∀ i ∈ queued, i.trail ≠ []) :
    ∃ mvs₁ s₁ back₁, Path o s mvs₁ s₁ ∧ s₁.waiting = source ts ++ back₁ ∧
      ∀ y, Path o (s.withWaiting (w ++ y ++ back)) mvs₁ (s₁.withWaiting (y ++ back₁)) := by
  have hunread : unread s'.waiting = ts.length := by
    rw [hq', unread_append, unread_source, unread_eq_zero hqueued, Nat.add_zero]
  induction h generalizing w back with
  | nil s =>
    cases w with
    | nil => exact ⟨[], s, back, .nil s, hq, fun y => .nil _⟩
    | cons i w =>
      -- the token in front belongs to the source, so there would be one token too many
      rw [hq, unread_append, unread_append, unread_source, unread_cons (hw i List.mem_cons_self)]
        at hunread
      omega
  | @cons s s₁ s' mv mvs hstep hpath ih =>
    cases w with
    | nil => exact ⟨[], s, back, .nil s, hq, fun y => .nil _⟩
    | cons i w =>
      rcases hstep.frame_tail ho hback hq with ⟨w', back', hsub, hback', hq₁, hstep'⟩ | hshort
      · obtain ⟨mvs₁, s₂, back₁, hpath₁, hq₂, hreplace⟩ :=
          ih (fun j hj => hw j (List.mem_cons_of_mem i (hsub hj))) hback' hq₁ hq' hunread
        exact ⟨mv :: mvs₁, s₂, back₁, .cons hstep hpath₁, hq₂,
          fun y => .cons (hstep' y) (hreplace y)⟩
      · have hle := hpath.unread_le
        rw [source, List.length_map] at hshort
        omega

/-- The lowering has come to the tokens `ts` at the end of the source: no token of a body waits in
front of them. Where bodies run last, tokens of bodies may wait behind them. -/
structure ComesTo (o : Options) (ts : List Token) (s : Lowering) (queued : List Pending) :
    Prop where
  waiting : s.waiting = source ts ++ queued
  trail : ∀ i ∈ queued, i.trail ≠ []
  inPlace : o.placement = .inPlace → queued = []

/-- **The way to the rest of a source does not depend on it.** -/
theorem Path.exists_replace_source {pre : List Token} (h : Path o (start (pre ++ ts)) mvs s)
    (hs : ComesTo o ts s queued) :
    ∃ mvs₁ s₁ back, Path o (start (pre ++ ts)) mvs₁ s₁ ∧ s₁.waiting = source ts ++ back ∧
      ∀ ts', Path o (start (pre ++ ts')) mvs₁ (s₁.withWaiting (source ts' ++ back)) := by
  cases ho : o.placement with
  | inPlace =>
    obtain rfl := hs.inPlace ho
    have hq : s.waiting = source ts := hs.waiting.trans (List.append_nil _)
    refine ⟨mvs, s, [], h, hs.waiting, fun ts' => ?_⟩
    rw [List.append_nil]
    exact h.replace_source ho hq ts'
  | tail =>
    have hstart (ts' : List Token) :
        (start (pre ++ ts')).waiting = source pre ++ source ts' ++ [] := by
      rw [waiting_start, List.map_append, List.append_nil]
      rfl
    obtain ⟨mvs₁, s₁, back, hpath, hq, hreplace⟩ :=
      h.exists_replace_tail ho (fun _ => trail_source) queued_nil (hstart ts) hs.waiting hs.trail
    refine ⟨mvs₁, s₁, back, hpath, hq, fun ts' => ?_⟩
    have hreplaced : (start (pre ++ ts)).withWaiting (source pre ++ source ts' ++ []) =
        start (pre ++ ts') := by
      rw [← hstart ts']
      rfl
    rw [← hreplaced]
    exact hreplace (source ts')

/-! ## Side by side -/

/-- The states agree, but for what their tables say about the word `n`. -/
structure AgreesBut (n : String) (t s : Lowering) : Prop where
  waiting : t.waiting = s.waiting
  macros : ∀ w, w ≠ .identifier n → t.macros.invoked? w = s.macros.invoked? w
  assembly : t.assembly = s.assembly
  expansions : t.expansions = s.expansions

/-- A new macro with the name `n` is such a difference. -/
theorem agreesBut_insert (hq : s.waiting = w) (body : MacroBody) :
    AgreesBut n ⟨.ofList w, s.macros.insert n body, s.assembly, s.expansions⟩ s := by
  refine ⟨hq.symm, fun word hword => ?_, rfl, rfl⟩
  have hother : word.isIdentifier n = false :=
    Bool.eq_false_iff.2 fun h => hword (Word.isIdentifier_iff.1 h)
  rw [MacroTable.invoked?_insert, hother]
  exact Option.or_none

/-- A token with another word names a macro in both states or in neither. -/
theorem AgreesBut.checkName_eq (ht : AgreesBut n t s) (label : Token)
    (hlabel : label.word ≠ .identifier n) : t.macros.checkName label = s.macros.checkName label :=
  MacroTable.checkName_congr (congrArg Option.isSome (ht.macros _ hlabel))

/-- **A step for a step**: the word `n` is not among what waits, so no step looks it up. -/
theorem AgreesBut.step (ht : AgreesBut n t s)
    (hfree : ∀ i ∈ s.waiting, i.token.word ≠ .identifier n) (h : Step o s mv s') :
    ∃ mv' t', Step o t mv' t' ∧ AgreesBut n t' s' := by
  have hnames := ht.checkName_eq
  obtain ⟨hwaiting, hmacros, hassembly, hexpansions⟩ := ht
  cases h with
  | @emit i rest op a hq hm hop hne hplace =>
    have hi := hfree i (hq ▸ List.mem_cons_self)
    rw [← hmacros _ hi] at hm
    rw [← hassembly] at hplace
    exact ⟨_, _, .emit (hwaiting.trans hq) hm hop hne hplace, rfl, hmacros, rfl, hexpansions⟩
  | @expand i rest name body hq hm hfree' hlimit =>
    have hi := hfree i (hq ▸ List.mem_cons_self)
    rw [← hmacros _ hi] at hm
    rw [← hexpansions] at hlimit
    exact ⟨_, _, .expand (hwaiting.trans hq) hm hfree' hlimit, rfl, hmacros, hassembly,
      congrArg (· + 1) hexpansions⟩
  | @define i j rest rest' name body hq hm hkey hname hcut =>
    have hi := hfree i (by simp [hq])
    have hj := hfree j (by simp [hq])
    rw [← hmacros _ hi] at hm
    rw [← hnames _ hj] at hname
    refine ⟨_, _, .define (hwaiting.trans hq) hm hkey hname hcut, rfl, fun w hw => ?_, hassembly,
      hexpansions⟩
    rw [MacroTable.invoked?_insert, MacroTable.invoked?_insert, hmacros w hw]

/-- **An error for an error.** -/
theorem AgreesBut.fails (ht : AgreesBut n t s)
    (hfree : ∀ i ∈ s.waiting, i.token.word ≠ .identifier n) (h : Fails o s e) : Fails o t e := by
  have hnames := ht.checkName_eq
  obtain ⟨hwaiting, hmacros, hassembly, hexpansions⟩ := ht
  rw [fails_iff] at h ⊢
  have hfront {i : Pending} {rest : List Pending} (hq : s.waiting = i :: rest) :
      t.waiting = i :: rest ∧ t.macros.invoked? i.token.word = s.macros.invoked? i.token.word :=
    ⟨hwaiting.trans hq, hmacros _ (hfree i (hq ▸ List.mem_cons_self))⟩
  cases h with
  | recursive hq hm hmem =>
    obtain ⟨hq', hi⟩ := hfront hq
    exact .recursive hq' (hi.trans hm) hmem
  | limit hq hm hnot hlimit hcount =>
    obtain ⟨hq', hi⟩ := hfront hq
    exact .limit hq' (hi.trans hm) hnot hlimit (hexpansions ▸ hcount)
  | operation hq hm hop =>
    obtain ⟨hq', hi⟩ := hfront hq
    exact .operation hq' (hi.trans hm) hop
  | place hq hm hop hne hplace =>
    obtain ⟨hq', hi⟩ := hfront hq
    exact .place hq' (hi.trans hm) hop hne (hassembly ▸ hplace)
  | noName hq hm hkey =>
    obtain ⟨hq', hi⟩ := hfront hq
    exact .noName hq' (hi.trans hm) hkey
  | @name i j rest _ hq hm hkey hname =>
    obtain ⟨hq', hi⟩ := hfront hq
    have hj := hnames j.token (hfree j (by simp [hq]))
    exact .name hq' (hi.trans hm) hkey (hj.trans hname)
  | @unfinished i j rest name hq hm hkey hname hcut =>
    obtain ⟨hq', hi⟩ := hfront hq
    have hj := hnames j.token (hfree j (by simp [hq]))
    exact .unfinished hq' (hi.trans hm) hkey (hj.trans hname) hcut

/-- No token that waits is the word, if none of the source is. -/
theorem Sourced.word_ne (hs : Sourced ts s) (hfresh : ∀ t ∈ ts, t.word ≠ .identifier n) :
    ∀ i ∈ s.waiting, i.token.word ≠ .identifier n :=
  fun i hi => hfresh i.token (hs.waiting i hi)

theorem AgreesBut.path (hfresh : ∀ t ∈ ts, t.word ≠ .identifier n) (h : Path o s mvs s')
    (hs : Sourced ts s) (ht : AgreesBut n t s) :
    ∃ mvs' t', Path o t mvs' t' ∧ AgreesBut n t' s' := by
  induction h generalizing t with
  | nil s => exact ⟨[], t, .nil t, ht⟩
  | cons hstep _ ih =>
    obtain ⟨mv', t₁, hstep', ht₁⟩ := ht.step (hs.word_ne hfresh) hstep
    obtain ⟨mvs', t', hpath', ht'⟩ := ih (hstep.sourced hs) ht₁
    exact ⟨_, t', .cons hstep' hpath', ht'⟩

/-- **States that agree but for a word have the same result**, if the word is not in the source. -/
theorem AgreesBut.run_result (hfresh : ∀ t ∈ ts, t.word ≠ .identifier n) (hs : Sourced ts s)
    (ht : AgreesBut n t s) (log log' : Array Event) :
    (run o t log).result = (run o s log').result := by
  obtain ⟨mvs, hpath, hend⟩ := exists_path_last o s
  obtain ⟨mvs', t', hpath', ht'⟩ := ht.path hfresh hpath hs
  have hs' : Sourced ts (last o s) := hpath.invariant (fun _ _ _ hs hstep => hstep.sourced hs) hs
  rcases hpath.result_of_halted hend log' with ⟨hnil, hresult⟩ | ⟨e, hfails, hresult⟩
  · rw [hresult, hpath'.result_of_waiting_nil (ht'.waiting.trans hnil) log, ht'.assembly]
  · rw [hresult, hpath'.result_of_fails (ht'.fails (hs'.word_ne hfresh) hfails) log]

/-- A definition is taken in whole, and what follows it is left. -/
theorem step_of_definition {key label close : Token} {b : MacroBody} {post : List Token}
    (hm : s.macros.invoked? key.word = none) (hkey : key.word = .identifier "macro")
    (hname : s.macros.checkName label = .ok n) (hclose : close.isEnd = true) :
    Step o (s.withWaiting (source (key :: label :: (b.tokens ++ close :: post)) ++ back))
      (.define label n b)
      ⟨.ofList (source post ++ back), s.macros.insert n b, s.assembly, s.expansions⟩ := by
  have hcut : MacroBody.cut? (source b.tokens ++ ⟨close, []⟩ :: (source post ++ back)) =
      some (b, source post ++ back) :=
    MacroBody.cut?_of_append hclose (map_token_source b.tokens).symm
  refine .define (i := ⟨key, []⟩) (j := ⟨label, []⟩) ?_ hm hkey hname hcut
  simp [source]

end Lowering

open Lowering

/-- **A definition that is not used makes no difference.** If the lowering of a source comes to its
last tokens `post`, then a definition can be put in front of them. Its name has to be neither
builtin nor a word of the source, and its body may be any tokens without an `end`. -/
theorem lower_unused {o : Options} {pre post b : List Token} {key label close : Token} {n : String}
    {mvs : List Move} {s : Lowering} {queued : List Pending}
    (hpath : Path o (start (pre ++ post)) mvs s) (hs : ComesTo o post s queued)
    (hbuiltin : Opcode.ofWord? n = none) (hfresh : ∀ t ∈ pre ++ post, t.word ≠ .identifier n)
    (hkey : key.word = .identifier "macro") (hlabel : label.word = .identifier n)
    (hb : ∀ t ∈ b, t.isEnd = false) (hclose : close.isEnd = true) :
    (lower o (pre ++ key :: label :: (b ++ close :: post))).result =
      (lower o (pre ++ post)).result := by
  obtain ⟨mvs₁, s₁, back, hpath₁, hq, hreplace⟩ := hpath.exists_replace_source hs
  have hsourced : Sourced (pre ++ post) s₁ := hpath₁.sourced
  have hm : s₁.macros.invoked? key.word = none := by
    rw [hkey]
    exact (hpath₁.noBuiltin MacroTable.noBuiltin_empty).invoked?_eq_none
      (rfl : _ = some Opcode.macroWord)
  have hfree : n ∉ s₁.macros.names := by
    intro hn
    obtain ⟨t, ht, hword⟩ := hsourced.names n hn
    exact hfresh t ht hword
  have hname : s₁.macros.checkName label = .ok n :=
    MacroTable.checkName_of_free hlabel hbuiltin hfree
  have hstep : Step o
      (s₁.withWaiting (source (key :: label :: (b ++ close :: post)) ++ back)) _ _ :=
    step_of_definition (b := ⟨b, hb⟩) hm hkey hname hclose
  rw [lower, lower, run_of_path (hreplace _), run_of_path (.single hstep), run_of_path hpath₁]
  exact (agreesBut_insert hq ⟨b, hb⟩).run_result hfresh hsourced _ _

/-- `macro f 1 end f if end f`, where bodies run last and the body of the first `f` waits when the
definition `macro g macro if g end` is put in front of `if`. -/
theorem lower_unused_queued :
    let o : Options := ⟨.tail, some 2, true⟩
    let word (name : String) : Token := ⟨⟨"a", 0⟩, .identifier name⟩
    let one : Token := ⟨⟨"a", 1⟩, .intLiteral 1⟩
    let pre : List Token := [word "macro", word "f", one, word "end", word "f"]
    let post : List Token := [word "if", word "end", word "f"]
    let b : List Token := [word "macro", word "if", word "g"]
    let p : Program := ⟨#[⟨.ifBlock, none, some 1, ⟨"a", 0⟩⟩, ⟨.endBlock, none, some 2, ⟨"a", 0⟩⟩,
      .pushInt 1 ⟨"a", 1⟩, .pushInt 1 ⟨"a", 1⟩]⟩
    (∃ mvs s, Path o (start (pre ++ post)) mvs s ∧ ComesTo o post s [⟨one, ["f"]⟩]) ∧
      Opcode.ofWord? "g" = none ∧ (∀ t ∈ pre ++ post, t.word ≠ .identifier "g") ∧
      (∀ t ∈ b, t.isEnd = false) ∧ (lower o (pre ++ post)).result = .ok p ∧
      (lower o (pre ++ word "macro" :: word "g" :: (b ++ word "end" :: post))).result = .ok p := by
  intro o word one pre post b p
  have hcomes : ∃ mvs s, Path o (start (pre ++ post)) mvs s ∧ ComesTo o post s [⟨one, ["f"]⟩] :=
    ⟨_, _, .cons (.define rfl rfl rfl rfl rfl)
      (.cons (.expand rfl rfl (by decide) fun _ h => by cases h; decide) (.nil _)),
      rfl, by decide, nofun⟩
  have hpath : ∃ mvs s, Path o (start (pre ++ post)) mvs s ∧ s.waiting = [] ∧
      s.assembly.finish = .ok p :=
    ⟨_, _, .cons (.define rfl rfl rfl rfl rfl)
      (.cons (.expand rfl rfl (by decide) fun _ h => by cases h; decide)
        (.cons (.emit rfl rfl rfl nofun rfl) (.cons (.emit rfl rfl rfl nofun rfl)
          (.cons (.expand rfl rfl (by decide) fun _ h => by cases h; decide)
            (.cons (.emit rfl rfl rfl nofun rfl) (.cons (.emit rfl rfl rfl nofun rfl)
              (.nil _))))))), rfl, rfl⟩
  obtain ⟨mvs, s, hpath, hend, hfinish⟩ := hpath
  have hlower : (lower o (pre ++ post)).result = .ok p := run_ok_of_path hpath hend hfinish
  obtain ⟨mvs₁, s₁, hpath₁, hs₁⟩ := hcomes
  have hfresh : ∀ t ∈ pre ++ post, t.word ≠ .identifier "g" := by decide
  have hb : ∀ t ∈ b, t.isEnd = false := by decide
  exact ⟨⟨mvs₁, s₁, hpath₁, hs₁⟩, rfl, hfresh, hb, hlower,
    (lower_unused hpath₁ hs₁ rfl hfresh rfl rfl hb rfl).trans hlower⟩

end StackLang
