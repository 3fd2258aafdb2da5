import StackLang.Proofs.Lowering.Expansion

/-!
# Bodies that run last and bodies that run in place

Both placements read the source in the same order and with the same table at every token of it;
they differ in when bodies are dealt with. `Reading` is what both have in common: a walk through
the source that notes, beside its direct operations, what the body of each invocation yields with
the table that the walk ends with.

**Theorem (`Path.reading`).** A lowering that places bodies last and comes to its end follows a
reading of its source.

**Theorem (`Reading.lower_inPlace`).** A lowering in place follows it too, as long as no body
invokes a macro that is defined only later.

**Theorem (`lower_inPlace_of_tail`).** So if a source has a program with bodies last, then in place
it has one with the same operations in another order, with the control words in the same order, or
else it ends at a word that the source defines after the invocation that is being expanded. What a
source defines is read off its tokens (`definedNames`), without a table.

**Theorem (`names_of_lower_tail`).** With bodies last these are indeed the macros of a program, in
their order.

Control words have to be in the source itself: at the end of a program no block is open, and
bodies, in which there is no `end`, could only open blocks.
-/

namespace StackLang

/-! ## The definitions of a source -/

/-- What follows the first `end`. -/
def afterEnd (ts : List Token) : List Token :=
  (ts.dropWhile (!·.isEnd)).drop 1

/-- The names that a source gives to macros, in order. A definition is the word `macro`, the name
and all up to the next `end`. With bodies last these are the macros of the program, if there is one
(`names_of_lower_tail`). -/
def definedNames : List Token → List String
  | [] => []
  | [_] => []
  | t :: name :: ts =>
    if t.word = .identifier "macro" then
      name.word.identifier?.toList ++ definedNames (afterEnd ts)
    else definedNames (name :: ts)
termination_by ts => ts.length
decreasing_by
  · have := (List.dropWhile_sublist (l := ts) (!·.isEnd)).length_le
    simp only [afterEnd, List.length_drop, List.length_cons]
    omega
  · exact Nat.lt_succ_self _

theorem afterEnd_suffix (ts : List Token) : afterEnd ts <:+ ts :=
  (List.drop_suffix 1 _).trans (List.dropWhile_suffix _)

theorem definedNames_cons {t : Token} (h : t.word ≠ .identifier "macro") (ts : List Token) :
    definedNames (t :: ts) = definedNames ts := by
  cases ts with
  | nil => simp [definedNames]
  | cons name ts => rw [definedNames, if_neg h]

theorem definedNames_definition {t j : Token} {name : String} (h : t.word = .identifier "macro")
    (hj : j.word = .identifier name) (ts : List Token) :
    definedNames (t :: j :: ts) = name :: definedNames (afterEnd ts) := by
  rw [definedNames, if_pos h, hj]
  rfl

namespace Lowering

/-- Tokens as they wait when they come from the source. -/
def source (ts : List Token) : List Pending :=
  ts.map (⟨·, []⟩)

theorem map_token_source (ts : List Token) : (source ts).map (·.token) = ts := by
  rw [source, List.map_map]
  exact List.map_id _

/-- A body that is cut off the source leaves what follows the next `end`. -/
theorem eq_afterEnd_of_cut? {ts : List Token} {b : MacroBody} {rest : List Pending}
    (h : MacroBody.cut? (source ts) = some (b, rest)) : rest = source (afterEnd ts) := by
  unfold MacroBody.cut? at h
  split at h
  · cases h
  · next i rest' hdrop =>
    cases h
    have hmap : (source ts).dropWhile (!·.token.isEnd) = source (ts.dropWhile (!·.isEnd)) :=
      List.dropWhile_map ..
    have htail := congrArg (List.drop 1) (hdrop.symm.trans hmap)
    rw [source, ← List.map_drop] at htail
    exact htail

/-! ## Readings -/

/-- A walk through a source from the table `m` to the table `m'`. The source itself emits `direct`,
bodies emit `called` with the table `m'`, and `inPlace` is both together when every body is at the
place of its invocation; the bodies are entered in `n` expansions. -/
inductive Reading (m' : MacroTable MacroBody) : MacroTable MacroBody → List Token →
    List Operation → List Operation → List Operation → Nat → Prop
  | nil : Reading m' m' [] [] [] [] 0
  | emit {m : MacroTable MacroBody} {t : Token} {ts : List Token} {op : Operation}
      {direct called inPlace : List Operation} {n : Nat}
      (hm : m.invoked? t.word = none) (hop : t.operation = .ok op)
      (hne : op.opcode ≠ .macroWord) (hrest : Reading m' m ts direct called inPlace n) :
      Reading m' m (t :: ts) (op :: direct) called (op :: inPlace) n
  | expand {m : MacroTable MacroBody} {t : Token} {ts : List Token} {name : String}
      {body : MacroBody} {ops direct called inPlace : List Operation} {k n : Nat}
      (hm : m.invoked? t.word = some (name, body)) (hkey : t.word ≠ .identifier "macro")
      (hbody : Yields m' (body.pending name []) ops k)
      (hrest : Reading m' m ts direct called inPlace n) :
      Reading m' m (t :: ts) direct (ops ++ called) (ops ++ inPlace) (k + n + 1)
  | define {m : MacroTable MacroBody} {t j : Token} {ts : List Token} {name : String}
      {body : MacroBody} {direct called inPlace : List Operation} {n : Nat}
      (hm : m.invoked? t.word = none) (hkey : t.word = .identifier "macro")
      (hname : m.checkName j = .ok name)
      (hcut : MacroBody.cut? (source ts) = some (body, source (afterEnd ts)))
      (hrest : Reading m' (m.insert name body) (afterEnd ts) direct called inPlace n) :
      Reading m' m (t :: j :: ts) direct called inPlace n

section

variable {m m' : MacroTable MacroBody} {ts : List Token}
  {direct called inPlace : List Operation} {n : Nat}

/-- Where bodies are placed does not matter for what is emitted. -/
theorem Reading.perm (h : Reading m' m ts direct called inPlace n) :
    inPlace.Perm (direct ++ called) := by
  induction h with
  | nil => exact .nil
  | emit _ _ _ _ ih => exact ih.cons _
  | @expand _ _ _ _ _ ops direct called _ _ _ _ _ _ _ ih =>
    exact (ih.append_left ops).trans (List.perm_append_comm_assoc ops direct called)
  | define _ _ _ _ _ ih => exact ih

/-- If bodies emit plain operations, the control words are those of the source. -/
theorem Reading.filter_control (h : Reading m' m ts direct called inPlace n)
    (hplain : ∀ op ∈ called, op.opcode.isControl = false) :
    inPlace.filter (·.opcode.isControl) = direct.filter (·.opcode.isControl) := by
  induction h with
  | nil => rfl
  | emit _ _ _ _ ih => rw [List.filter_cons, List.filter_cons, ih hplain]
  | @expand _ _ _ _ _ ops _ _ _ _ _ _ _ _ _ ih =>
    have hops : ops.filter (·.opcode.isControl) = [] := by
      rw [List.filter_eq_nil_iff]
      intro op hop
      simp [hplain op (List.mem_append_left _ hop)]
    rw [List.filter_append, hops, List.nil_append]
    exact ih fun op hop => hplain op (List.mem_append_right _ hop)
  | define _ _ _ _ _ ih => exact ih hplain

/-- No `end` is emitted by a body. -/
theorem Reading.called_ne_end (h : Reading m' m ts direct called inPlace n) :
    ∀ op ∈ called, op.opcode ≠ .endBlock := by
  induction h with
  | nil => exact nofun
  | emit _ _ _ _ ih => exact ih
  | @expand _ _ _ name body _ _ _ _ _ _ _ _ hbody _ ih =>
    intro op hop
    rcases List.mem_append.1 hop with hop | hop
    · exact hbody.opcode_ne_end (body.endFree_pending name []) op hop
    · exact ih op hop
  | define _ _ _ _ _ ih => exact ih

/-- **The table grows by the definitions of the source**, in their order. -/
theorem Reading.names_eq (h : Reading m' m ts direct called inPlace n) :
    m'.names = m.names ++ definedNames ts := by
  induction h with
  | nil => simp [definedNames]
  | emit _ hop hne _ ih =>
    rw [definedNames_cons (Token.word_ne_macroWord hop hne), ih]
  | expand _ hkey _ _ ih => rw [definedNames_cons hkey, ih]
  | define _ hkey hname _ _ ih =>
    rw [definedNames_definition hkey (MacroTable.checkName_eq_ok hname).1, ih,
      MacroTable.names_insert, List.append_assoc]
    rfl

theorem Reading.extends (h : Reading m' m ts direct called inPlace n) : m.Extends m' := by
  induction h with
  | nil => exact .refl m'
  | emit _ _ _ _ ih => exact ih
  | expand _ _ _ _ ih => exact ih
  | @define m _ _ _ name body _ _ _ _ _ _ _ _ _ ih =>
    exact (m.extends_insert name body).trans ih

/-- A word that invokes a macro in the end only is defined in between. -/
theorem Reading.mem_definedNames (h : Reading m' m ts direct called inPlace n) {w : Word}
    {e : String × MacroBody} (hw : m.invoked? w = none) (hw' : m'.invoked? w = some e) :
    e.1 ∈ definedNames ts := by
  have hname := MacroTable.mem_names_of_invoked? hw'
  rw [h.names_eq, List.mem_append] at hname
  rcases hname with hname | hname
  · cases MacroTable.word_of_invoked? hw'
    exact absurd hw (MacroTable.invoked?_ne_none hname)
  · exact hname

end

/-! ## Bodies that run last -/

section

variable {o : Options} {s s' : Lowering} {mvs : List Move} {ts : List Token}

/-- **A lowering that places bodies last follows a reading of its source.** First it emits what the
source emits, and later what the bodies that were waiting and those of the source yield. -/
theorem Path.reading (ho : o.placement = .tail) (h : Path o s mvs s') (hend : s'.waiting = [])
    {bodies : List Pending} (hq : s.waiting = source ts ++ bodies) (hfree : EndFree bodies)
    (hs : s.macros.NoBuiltin) :
    ∃ direct called inPlace n ops k late, Reading s'.macros s.macros ts direct called inPlace n ∧
      Yields s'.macros bodies ops k ∧ emitted mvs = direct ++ late ∧ late.Perm (ops ++ called) ∧
      s'.expansions = s.expansions + (n + k) := by
  induction h generalizing ts bodies with
  | nil s =>
    rw [hend] at hq
    obtain ⟨hts, rfl⟩ := List.append_eq_nil_iff.1 hq.symm
    obtain rfl := List.map_eq_nil_iff.1 hts
    exact ⟨[], [], [], 0, [], 0, [], .nil, .nil, rfl, .nil, rfl⟩
  | @cons s s₁ s' mv mvs hstep hpath ih =>
    cases ts with
    | nil =>
      -- the source has been read, and only bodies are left
      obtain ⟨hmacros, ops, k, hyields, hperm, hcount⟩ :=
        (Path.cons hstep hpath).yields ho hend (by rw [hq]; exact hfree)
      rw [hmacros]
      rw [hq] at hyields
      refine ⟨[], [], [], 0, ops, k, _, .nil, hyields, rfl, ?_, ?_⟩
      · rw [List.append_nil]
        exact hperm
      · rw [hcount, Nat.zero_add]
    | cons t ts =>
      cases hstep with
      | @emit i rest op a hq' hm hop hne hplace =>
        cases hq'.symm.trans hq
        obtain ⟨direct, called, inPlace, n, ops, k, late, hreading, hyields, hemitted, h⟩ :=
          ih hend rfl hfree hs
        refine ⟨op :: direct, called, op :: inPlace, n, ops, k, late,
          .emit hm hop hne hreading, hyields, ?_, h⟩
        exact congrArg (op :: ·) hemitted
      | @expand i rest name body hq' hm hnot hlimit =>
        cases hq'.symm.trans hq
        have hkey : t.word ≠ .identifier "macro" := by
          intro hkey
          cases (hs.invoked?_of_keyword hkey).symm.trans hm
        have hmerge : merge o.placement (source ts ++ bodies) (body.pending name []) =
            source ts ++ (bodies ++ body.pending name []) := by
          rw [ho]
          exact List.append_assoc ..
        obtain ⟨direct, called, inPlace, n, ops, k, late, hreading, hyields, hemitted, hperm,
          hcount⟩ := ih hend hmerge (hfree.append (body.endFree_pending name [])) hs
        obtain ⟨ops₁, k₁, ops₂, k₂, hbodies, hbody, rfl, rfl⟩ := hyields.split
        refine ⟨direct, ops₂ ++ called, ops₂ ++ inPlace, k₂ + n + 1, ops₁, k₁, late,
          .expand hm hkey hbody hreading, hbodies, hemitted, ?_, ?_⟩
        · rwa [← List.append_assoc]
        · rw [hcount]
          dsimp only
          omega
      | @define i j rest rest' name body hq' hm hkey hname hcut =>
        cases ts with
        | nil =>
          -- the keyword is the last token of the source, so no `end` can follow
          obtain rfl : bodies = j :: rest := (List.cons.inj (hq.symm.trans hq')).2
          cases (MacroBody.cut?_eq_none_iff.2 hfree.tail).symm.trans hcut
        | cons t' ts =>
          cases hq'.symm.trans hq
          obtain ⟨rest₁, hcut₁, rfl⟩ := MacroBody.cut?_append hfree hcut
          obtain rfl := eq_afterEnd_of_cut? hcut₁
          obtain ⟨direct, called, inPlace, n, ops, k, late, hreading, h⟩ :=
            ih hend rfl hfree (hs.insert hname)
          exact ⟨direct, called, inPlace, n, ops, k, late,
            .define hm hkey hname hcut₁ hreading, h⟩

/-- A whole lowering of a source with bodies last follows a reading of it. -/
theorem Path.reading_start (ho : o.placement = .tail) (h : Path o (start ts) mvs s)
    (hend : s.waiting = []) :
    ∃ direct called inPlace n late, Reading s.macros .empty ts direct called inPlace n ∧
      emitted mvs = direct ++ late ∧ late.Perm called ∧ s.expansions = n := by
  obtain ⟨direct, called, inPlace, n, ops, k, late, hreading, hnil, hemitted, hperm, hcount⟩ :=
    h.reading ho hend (List.append_nil (source ts)).symm nofun MacroTable.noBuiltin_empty
  -- no bodies were waiting at the start
  cases hnil
  exact ⟨direct, called, inPlace, n, late, hreading, hemitted, hperm, hcount.trans (Nat.zero_add n)⟩

end

/-! ## Bodies that run in place -/

/-- A lowering gets to the token `inv` of the source, which `after` follows, and fails at a token
that `inv` has been expanded to. -/
def StopsInside (o : Options) (s : Lowering) (inv : Token) (after : List Token)
    (e : CompileError) : Prop :=
  ∃ mvs s₁ name body s₂ mvs' s₃ i inner, Path o s mvs s₁ ∧ s₁.waiting = source (inv :: after) ∧
    Step o s₁ (.expand ⟨inv, []⟩ name body) s₂ ∧ Path o s₂ mvs' s₃ ∧
    s₃.waiting = i :: inner ++ source after ∧ Fails o s₃ e

section

variable {o : Options} {s s' : Lowering} {mvs : List Move} {ts after : List Token} {inv : Token}
  {e : CompileError} {m m' : MacroTable MacroBody} {direct called inPlace : List Operation}
  {n : Nat}

theorem StopsInside.after_path (hpath : Path o s mvs s') (h : StopsInside o s' inv after e) :
    StopsInside o s inv after e := by
  obtain ⟨mvs', s₁, name, body, s₂, mvs'', s₃, i, inner, hpath', h⟩ := h
  exact ⟨mvs ++ mvs', s₁, name, body, s₂, mvs'', s₃, i, inner, hpath.append hpath', h⟩

theorem StopsInside.run_result (h : StopsInside o s inv after e) (log : Array Event) :
    (run o s log).result = .error e := by
  obtain ⟨mvs, s₁, name, body, s₂, mvs', s₃, i, inner, hpath, -, hstep, hpath', -, hfails⟩ := h
  rw [run_of_path (hpath.append (.cons hstep hpath')), run_of_fails hfails]

/-- **A lowering in place follows a reading of its source**, from any state with the same open
blocks, unless a body invokes a macro that is defined only later in the source. -/
theorem Reading.lower_inPlace (ho : o.placement = .inPlace)
    (h : Reading m' m ts direct called inPlace n) (hm' : m'.NoBuiltin)
    (hplain : ∀ op ∈ called, op.opcode.isControl = false) {a a' : Assembly}
    (hplace : a.placeAll direct = .ok a') (hopeners : s.assembly.openers = a.openers)
    (hq : s.waiting = source ts) (hm : s.macros = m)
    (hlimit : ∀ k < s.expansions + n, Allows o k) :
    (∃ mvs s', Path o s mvs s' ∧ s'.waiting = [] ∧ s'.expansions = s.expansions + n ∧
      s'.assembly.openers = a'.openers ∧ emitted mvs = inPlace) ∨
    ∃ inv after location word, inv :: after <:+ ts ∧
      StopsInside o s inv after (.undefinedWord location word) ∧ word ∈ definedNames after := by
  induction h generalizing s a with
  | nil =>
    cases hplace
    exact .inl ⟨[], s, .nil s, hq, rfl, hopeners, rfl⟩
  | @emit m t ts op direct called inPlace n hnone hop hne hrest ih =>
    rw [Assembly.placeAll] at hplace
    split at hplace
    · cases hplace
    · next a₁ hplace₁ =>
      obtain ⟨b, hb, hopeners'⟩ := (Assembly.place_eq_ok_iff.1 hplace₁).transfer hopeners
      obtain ⟨s₁, hstep, hq₁, hm₁, hcount₁, hopeners₁⟩ : ∃ s₁, Step o s (.emit op) s₁ ∧
          s₁.waiting = source ts ∧ s₁.macros = m ∧ s₁.expansions = s.expansions ∧
          s₁.assembly.openers = a₁.openers :=
        ⟨_, .emit hq (by rw [hm]; exact hnone) hop hne hb, rfl, hm, rfl, hopeners'⟩
      rcases ih hplain hplace hopeners₁ hq₁ hm₁ (by rwa [hcount₁]) with
        ⟨mvs, s', hpath, hend, hcount, hopen, rfl⟩ | ⟨inv, after, location, word, hsuffix, hstop, h⟩
      · exact .inl ⟨_, s', .cons hstep hpath, hend, hcount.trans (by rw [hcount₁]), hopen, rfl⟩
      · exact .inr ⟨inv, after, location, word, hsuffix.trans (List.suffix_cons t ts),
          hstop.after_path (.single hstep), h⟩
  | @expand m t ts name body ops direct called inPlace k n hsome hkey hbody hrest ih =>
    obtain ⟨s₀, hstep, hq₀, hm₀, hcount₀, hopeners₀⟩ : ∃ s₀, Step o s (.expand ⟨t, []⟩ name body) s₀ ∧
        s₀.waiting = body.pending name [] ++ source ts ∧ s₀.macros = m ∧
        s₀.expansions = s.expansions + 1 ∧ s₀.assembly.openers = a.openers := by
      refine ⟨_, .expand hq (by rw [hm]; exact hsome) List.not_mem_nil
        (hlimit s.expansions (by omega)), ?_, hm, rfl, hopeners⟩
      rw [ho]
      rfl
    rcases hbody.lower_inPlace ho (fun op hop => hplain op (List.mem_append_left _ hop)) hq₀
      (by rw [hm₀]; exact hrest.extends) (fun j hj => hlimit j (by omega)) with
      ⟨mvs, s₁, hpath, hend, hmacros, hcount, hopen, rfl⟩ |
        ⟨mvs, s₁, i, inner, e, hpath, hi, hnone, hmacros, he⟩
    · rcases ih (fun op hop => hplain op (List.mem_append_right _ hop)) hplace
        (hopen.trans hopeners₀) hend (hmacros.trans hm₀) (fun j hj => hlimit j (by omega)) with
        ⟨mvs', s₂, hpath', hend', hcount', hopen', rfl⟩ |
          ⟨inv, after, location, word, hsuffix, hstop, h⟩
      · refine .inl ⟨_, s₂, .cons hstep (hpath.append hpath'), hend', by omega, hopen', ?_⟩
        exact List.filterMap_append
      · exact .inr ⟨inv, after, location, word, hsuffix.trans (List.suffix_cons t ts),
          hstop.after_path (.cons hstep hpath), h⟩
    · -- a word of the body is the name of a macro, but not yet
      have hword := MacroTable.word_of_invoked? he
      have hfails : Fails o s₁ (.undefinedWord i.token.location e.1) :=
        fails_of_undefined hi hnone hword (hm'.ofWord?_eq_none he)
      refine .inr ⟨t, ts, i.token.location, e.1, List.suffix_refl _,
        ⟨[], s, name, body, s₀, mvs, s₁, i, inner, .nil s, hq, hstep, hpath, hi, hfails⟩, ?_⟩
      rw [hmacros, hm₀] at hnone
      exact hrest.mem_definedNames hnone he
  | @define m t j ts name body direct called inPlace n hnone hkey hname hcut hrest ih =>
    obtain ⟨s₁, hstep, hq₁, hm₁, hcount₁, hopeners₁⟩ : ∃ s₁, Step o s (.define j name body) s₁ ∧
        s₁.waiting = source (afterEnd ts) ∧ s₁.macros = m.insert name body ∧
        s₁.expansions = s.expansions ∧ s₁.assembly.openers = a.openers :=
      ⟨_, .define (i := ⟨t, []⟩) (j := ⟨j, []⟩) hq (by rw [hm]; exact hnone) hkey
        (by rw [hm]; exact hname) hcut, rfl, by rw [hm], rfl, hopeners⟩
    rcases ih hplain hplace hopeners₁ hq₁ hm₁ (by rwa [hcount₁]) with
      ⟨mvs, s', hpath, hend, hcount, hopen, rfl⟩ | ⟨inv, after, location, word, hsuffix, hstop, h⟩
    · exact .inl ⟨_, s', .cons hstep hpath, hend, hcount.trans (by rw [hcount₁]), hopen, rfl⟩
    · have hafter : afterEnd ts <:+ t :: j :: ts :=
        (afterEnd_suffix ts).trans ((List.suffix_cons j ts).trans (List.suffix_cons t _))
      exact .inr ⟨inv, after, location, word, hsuffix.trans hafter,
        hstop.after_path (.single hstep), h⟩

end

end Lowering

/-! ## Both placements -/

section

open Lowering

/-- If bodies run last, the macros of a program are those that its source defines. -/
theorem names_of_lower_tail {limit : Option Nat} {verify : Bool} {ts : List Token} {p : Program}
    (h : (lower ⟨.tail, limit, verify⟩ ts).result = .ok p) :
    (finalMacros ⟨.tail, limit, verify⟩ ts).names = definedNames ts := by
  obtain ⟨mvs, s, hpath, hend, -⟩ := path_of_run_ok h
  obtain ⟨direct, called, inPlace, n, late, hreading, -⟩ := hpath.reading_start rfl hend
  rw [finalMacros, last_eq_of_path hpath (.inl hend)]
  exact hreading.names_eq

/-- **The placements agree up to order.** Suppose a source has a program when bodies run last. If
bodies run in place, then either it has a program too, with the same operations but for order and
jumps, the same number of expansions and the control words in the same order; or the lowering ends
inside the expansion of a token, at a word that the source defines after that token. -/
theorem lower_inPlace_of_tail {limit : Option Nat} {verify : Bool} {ts : List Token} {p : Program}
    (h : (lower ⟨.tail, limit, verify⟩ ts).result = .ok p) :
    (∃ q, (lower ⟨.inPlace, limit, verify⟩ ts).result = .ok q ∧ q.unlinked.Perm p.unlinked ∧
      expansionCount ⟨.inPlace, limit, verify⟩ ts = expansionCount ⟨.tail, limit, verify⟩ ts ∧
      q.unlinked.filter (·.opcode.isControl) = p.unlinked.filter (·.opcode.isControl)) ∨
    ∃ inv after location word, inv :: after <:+ ts ∧
      StopsInside ⟨.inPlace, limit, verify⟩ (.start ts) inv after (.undefinedWord location word) ∧
      (lower ⟨.inPlace, limit, verify⟩ ts).result = .error (.undefinedWord location word) ∧
      word ∈ definedNames after := by
  obtain ⟨mvs, s, hpath, hend, hfinish⟩ := path_of_run_ok h
  obtain ⟨hblocks, rfl⟩ := Assembly.finish_eq_ok_iff.1 hfinish
  obtain ⟨direct, called, inPlace, n, late, hreading, hemitted, hperm, hcount⟩ :=
    hpath.reading_start rfl hend
  -- bodies emit no control words, because all blocks are closed in the end
  have hplace := hpath.placeAll
  rw [hemitted] at hplace
  obtain ⟨a, hdirect, hlate⟩ := Assembly.exists_of_placeAll_append hplace
  obtain ⟨ha, hlatePlain⟩ := Assembly.of_placeAll_without_end hlate hblocks
    fun op hop => hreading.called_ne_end op (hperm.mem_iff.1 hop)
  have hplain : ∀ op ∈ called, op.opcode.isControl = false := by
    intro op hop
    exact hlatePlain op (hperm.mem_iff.2 hop)
  have hlimit : ∀ k < 0 + n, Allows ⟨.inPlace, limit, verify⟩ k := by
    intro k hk
    refine hpath.allows nofun k ?_
    rwa [hcount, ← Nat.zero_add n]
  rcases hreading.lower_inPlace rfl (hpath.noBuiltin MacroTable.noBuiltin_empty) hplain hdirect rfl
    rfl rfl hlimit with
    ⟨mvs', s', hpath', hend', hcount', hopeners, hemitted'⟩ |
      ⟨inv, after, location, word, hsuffix, hstop, hword⟩
  · have hblocks' : s'.assembly.blocks = [] := by
      rw [Assembly.openers, Assembly.openers, ha] at hopeners
      exact List.map_eq_nil_iff.1 hopeners
    have hfinish' := Assembly.finish_eq_ok_iff.2 ⟨hblocks', rfl⟩
    have hlateFilter : late.filter (·.opcode.isControl) = [] := by
      rw [List.filter_eq_nil_iff]
      intro op hop
      simp [hlatePlain op hop]
    refine .inl ⟨s'.assembly.program, run_ok_of_path hpath' hend' hfinish', ?_, ?_, ?_⟩
    · rw [hpath'.unlinked, hpath.unlinked, hemitted, hemitted']
      exact hreading.perm.trans (hperm.symm.append_left direct)
    · rw [expansionCount, expansionCount, last_eq_of_path hpath' (.inl hend'),
        last_eq_of_path hpath (.inl hend), hcount, hcount']
      exact Nat.zero_add n
    · rw [hpath'.unlinked, hpath.unlinked, hemitted, hemitted']
      show inPlace.filter _ = (direct ++ late).filter _
      rw [hreading.filter_control hplain, List.filter_append, hlateFilter, List.append_nil]
  · exact .inr ⟨inv, after, location, word, hsuffix, hstop, hstop.run_result _, hword⟩

/-- `macro f g end f macro g 1 end`, in which `f` is invoked before `g` is defined. -/
theorem lower_inPlace_of_tail_forward :
    let ts : List Token := [⟨⟨"a", 0⟩, .identifier "macro"⟩, ⟨⟨"a", 0⟩, .identifier "f"⟩,
      ⟨⟨"a", 0⟩, .identifier "g"⟩, ⟨⟨"a", 0⟩, .identifier "end"⟩, ⟨⟨"a", 1⟩, .identifier "f"⟩,
      ⟨⟨"a", 2⟩, .identifier "macro"⟩, ⟨⟨"a", 2⟩, .identifier "g"⟩, ⟨⟨"a", 2⟩, .intLiteral 1⟩,
      ⟨⟨"a", 2⟩, .identifier "end"⟩]
    let p : Program := ⟨#[.pushInt 1 ⟨"a", 2⟩]⟩
    (lower ⟨.tail, none, true⟩ ts).result = .ok p ∧
      ((∃ q, (lower ⟨.inPlace, none, true⟩ ts).result = .ok q ∧ q.unlinked.Perm p.unlinked ∧
        expansionCount ⟨.inPlace, none, true⟩ ts = expansionCount ⟨.tail, none, true⟩ ts ∧
        q.unlinked.filter (·.opcode.isControl) = p.unlinked.filter (·.opcode.isControl)) ∨
      ∃ inv after location word, inv :: after <:+ ts ∧
        StopsInside ⟨.inPlace, none, true⟩ (.start ts) inv after (.undefinedWord location word) ∧
        (lower ⟨.inPlace, none, true⟩ ts).result = .error (.undefinedWord location word) ∧
        word ∈ definedNames after) := by
  intro ts p
  have hpath : ∃ mvs s, Path ⟨.tail, none, true⟩ (start ts) mvs s ∧ s.waiting = [] ∧
      s.assembly.finish = .ok p :=
    ⟨_, _, .cons (.define rfl rfl rfl rfl rfl) (.cons (.expand rfl rfl (by decide) nofun)
      (.cons (.define rfl rfl rfl rfl rfl) (.cons (.expand rfl rfl (by decide) nofun)
        (.cons (.emit rfl rfl rfl nofun rfl) (.nil _))))), rfl, rfl⟩
  obtain ⟨mvs, s, hpath, hend, hfinish⟩ := hpath
  have hlower : (lower ⟨.tail, none, true⟩ ts).result = .ok p :=
    run_ok_of_path hpath hend hfinish
  exact ⟨hlower, lower_inPlace_of_tail hlower⟩

end

end StackLang
