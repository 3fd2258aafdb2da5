import StackLang.Proofs.Assembly.Relocation
import StackLang.Proofs.Lowering.Inlining

/-!
# Sources one after the other

When bodies run in place and there is no limit, a source can be lowered in two parts. What the
first part leaves to the second is its table of macros alone, and this can be written down again
as definitions (`Writes`).

**Theorem (`Path.relocate`).** A lowering does the same behind a program that has been assembled
before: relocation changes no step, and the number of expansions does not matter without a
limit.

**Theorem (`lower_inPlace_append`).** So if the first part has a program, then the whole source
has the program or the error of the second part behind the definitions of the first, with the
program relocated behind that of the first part.
-/

namespace StackLang

/-! ## Definitions written down -/

/-- The tokens are the definitions of the macros, one after the other, wherever their keywords are
written. -/
inductive Writes : List (String × MacroBody) → List Token → Prop
  | nil : Writes [] []
  | cons {name : String} {body : MacroBody} {entries : List (String × MacroBody)}
      {key label close : Token} {ts : List Token} (hkey : key.word = .identifier "macro")
      (hlabel : label.word = .identifier name) (hclose : close.word = .identifier "end")
      (hrest : Writes entries ts) :
      Writes ((name, body) :: entries) (key :: label :: (body.tokens ++ close :: ts))

namespace Lowering

variable {o : Options} {s s' : Lowering} {mv : Move} {mvs : List Move} {e : CompileError}

/-- All names of macros are different. -/
theorem Path.nodup_names (h : Path o s mvs s') (hs : s.macros.names.Nodup) :
    s'.macros.names.Nodup := by
  refine h.invariant (I := fun s => s.macros.names.Nodup) ?_ hs
  intro s mv s' hs hstep
  cases hstep with
  | emit => exact hs
  | expand => exact hs
  | define _ _ _ hname _ => exact MacroTable.nodup_insert hs hname

/-- **Definitions restore the table** from which they have been written down. -/
theorem path_of_writes {entries : List (String × MacroBody)} {ts : List Token}
    (hw : Writes entries ts) (defined : List (String × MacroBody)) (us : List Token) (a : Assembly)
    (n : Nat)
    (hbuiltin : (⟨defined ++ entries⟩ : MacroTable MacroBody).NoBuiltin)
    (hnodup : (⟨defined ++ entries⟩ : MacroTable MacroBody).names.Nodup) :
    ∃ mvs, Path o ⟨.ofList (source (ts ++ us)), ⟨defined⟩, a, n⟩ mvs
      ⟨.ofList (source us), ⟨defined ++ entries⟩, a, n⟩ := by
  induction hw generalizing defined with
  | nil =>
    rw [List.append_nil]
    exact ⟨[], .nil _⟩
  | @cons name body entries key label close ts hkey hlabel hclose hrest ih =>
    have hbuiltin₀ : (⟨defined⟩ : MacroTable MacroBody).NoBuiltin := by
      intro other hother
      exact hbuiltin other (by simp [MacroTable.names] at hother ⊢; tauto)
    have hname : (⟨defined⟩ : MacroTable MacroBody).checkName label = .ok name := by
      refine MacroTable.checkName_of_free hlabel (hbuiltin name (by simp [MacroTable.names])) ?_
      intro hmem
      simp only [MacroTable.names, List.map_append, List.map_cons] at hnodup hmem
      exact (List.nodup_append.1 hnodup).2.2 name hmem name List.mem_cons_self rfl
    have hm : (⟨defined⟩ : MacroTable MacroBody).invoked? key.word = none :=
      hbuiltin₀.invoked?_of_keyword hkey
    have hsource : source (key :: label :: (body.tokens ++ close :: ts) ++ us) =
        ⟨key, []⟩ :: ⟨label, []⟩ :: (source body.tokens ++ ⟨close, []⟩ :: source (ts ++ us)) := by
      simp [source]
    have hcut : MacroBody.cut? (source body.tokens ++ ⟨close, []⟩ :: source (ts ++ us)) =
        some (body, source (ts ++ us)) :=
      MacroBody.cut?_of_append (by simp [Token.isEnd, hclose, Word.isIdentifier, Word.identifier?])
        (map_token_source body.tokens).symm
    have hentries : defined ++ (name, body) :: entries = defined ++ [(name, body)] ++ entries := by
      simp
    rw [hentries] at hbuiltin hnodup ⊢
    obtain ⟨mvs, hpath⟩ := ih _ hbuiltin hnodup
    exact ⟨_, .cons (.define hsource hm hkey hname hcut) hpath⟩

/-! ## A lowering behind a program -/

/-- The lowering behind the program `p`, with `n` expansions made before. -/
def relocate (p : Program) (n : Nat) (s : Lowering) : Lowering :=
  { s with assembly := s.assembly.relocate p, expansions := s.expansions + n }

variable (p : Program) (n : Nat)

theorem Step.relocate (hlimit : o.limit = none) (h : Step o s mv s') :
    Step o (s.relocate p n) mv (s'.relocate p n) := by
  cases h with
  | emit hq hm hop hne hplace =>
    refine .emit hq hm hop hne ?_
    exact (Assembly.place_relocate p (Token.operation_eq_ok hop).1 _).trans (by rw [hplace]; rfl)
  | @expand i rest name body hq hm hfree hallow =>
    have hstep : Step o (s.relocate p n) _ _ :=
      .expand hq hm hfree (allows_of_limit_none hlimit (s.expansions + n))
    have hcount : (s.relocate p n).expansions + 1 = s.expansions + 1 + n := Nat.add_right_comm ..
    rw [hcount] at hstep
    exact hstep
  | define hq hm hkey hname hcut => exact .define hq hm hkey hname hcut

theorem Path.relocate (hlimit : o.limit = none) (h : Path o s mvs s') :
    Path o (s.relocate p n) mvs (s'.relocate p n) := by
  induction h with
  | nil => exact .nil _
  | cons hstep _ ih => exact .cons (hstep.relocate p n hlimit) ih

theorem Fails.relocate (hlimit : o.limit = none) (h : Fails o s e) :
    Fails o (s.relocate p n) e := by
  rw [fails_iff] at h ⊢
  cases h with
  | recursive hq hm hmem => exact .recursive hq hm hmem
  | limit _ _ _ hsome => cases hlimit.symm.trans hsome
  | operation hq hm hop => exact .operation hq hm hop
  | place hq hm hop hne hplace =>
    refine .place hq hm hop hne ?_
    exact (Assembly.place_relocate p (Token.operation_eq_ok hop).1 _).trans (by rw [hplace]; rfl)
  | noName hq hm hkey => exact .noName hq hm hkey
  | name hq hm hkey hname => exact .name hq hm hkey hname
  | unfinished hq hm hkey hname hcut => exact .unfinished hq hm hkey hname hcut

/-- **A lowering does the same behind a program**, and its result is moved along. -/
theorem run_relocate (hlimit : o.limit = none) (s : Lowering) (log log' : Array Event) :
    (run o (s.relocate p n) log).result = (run o s log').result.map (p.linkAfter ·) := by
  obtain ⟨mvs, hpath, hend⟩ := exists_path_last o s
  have hpath' := hpath.relocate p n hlimit
  rcases hpath.result_of_halted hend log' with ⟨hnil, hresult⟩ | ⟨e, hfails, hresult⟩
  · rw [hresult, hpath'.result_of_waiting_nil hnil log, ← Assembly.finish_relocate]
    rfl
  · rw [hresult, hpath'.result_of_fails (hfails.relocate p n hlimit) log]
    rfl

end Lowering

open Lowering

/-- **Sources are lowered one after the other** when bodies run in place and there is no limit. If
the source `ts` has the program `p`, and `ds` are the definitions of the macros that its lowering
has defined, in order, then `ts` followed by `us` has the result that `ds` followed by `us` has:
the same error, or the program of it behind `p`, with the size of `p` added to all jumps. So what
follows a source never changes its operations. -/
theorem lower_inPlace_append {verify : Bool} {ts ds us : List Token} {p : Program}
    (h : (lower ⟨.inPlace, none, verify⟩ ts).result = .ok p)
    (hds : Writes (finalMacros ⟨.inPlace, none, verify⟩ ts).entries ds) :
    (lower ⟨.inPlace, none, verify⟩ (ts ++ us)).result =
      (lower ⟨.inPlace, none, verify⟩ (ds ++ us)).result.map (p.linkAfter ·) ∧
    ∀ q, (lower ⟨.inPlace, none, verify⟩ (ts ++ us)).result = .ok q →
      p.operations.toList <+: q.operations.toList := by
  obtain ⟨mvs, s, hpath, hend, hfinish⟩ := path_of_run_ok h
  obtain ⟨hblocks, rfl⟩ := Assembly.finish_eq_ok_iff.1 hfinish
  have hmacros : s.macros = finalMacros ⟨.inPlace, none, verify⟩ ts :=
    congrArg (·.macros) (last_eq_of_path hpath (.inl hend)).symm
  rw [← hmacros] at hds
  -- the first part leads to the second, behind the program of the first
  have hfirst : Path ⟨.inPlace, none, verify⟩ (start (ts ++ us)) mvs
      (s.withWaiting (source us)) := by
    rw [← List.append_nil ts] at hpath
    exact hpath.replace_source rfl hend us
  have hbehind : s.withWaiting (source us) =
      Lowering.relocate s.assembly.program s.expansions
        ⟨.ofList (source us), ⟨[] ++ s.macros.entries⟩, .empty, 0⟩ := by
    have hassembly : s.assembly = ⟨s.assembly.program, []⟩ :=
      congrArg (Assembly.mk s.assembly.program) hblocks
    simp only [Lowering.relocate, Assembly.relocate_empty, Nat.zero_add, List.nil_append]
    rw [← hassembly]
    rfl
  -- the definitions lead to the second part, with the same table
  obtain ⟨mvs', hdefs⟩ := path_of_writes (o := ⟨.inPlace, none, verify⟩) hds [] us .empty 0
    (hpath.noBuiltin MacroTable.noBuiltin_empty) (hpath.nodup_names List.nodup_nil)
  have hresult : (lower ⟨.inPlace, none, verify⟩ (ts ++ us)).result =
      (lower ⟨.inPlace, none, verify⟩ (ds ++ us)).result.map (s.assembly.program.linkAfter ·) := by
    have hstart : start (ds ++ us) = ⟨.ofList (source (ds ++ us)), ⟨[]⟩, .empty, 0⟩ := rfl
    rw [lower, lower, run_of_path hfirst, hbehind, hstart, run_of_path hdefs]
    exact run_relocate _ _ rfl _ _ _
  refine ⟨hresult, fun q hq => ?_⟩
  rw [hresult] at hq
  cases hq' : (lower ⟨.inPlace, none, verify⟩ (ds ++ us)).result with
  | error e =>
    rw [hq'] at hq
    cases hq
  | ok q' =>
    rw [hq'] at hq
    cases hq
    exact s.assembly.program.prefix_linkAfter q'

/-- `macro f macro g 1 end f end if g end` followed by `if g end`. The first source defines `g` from
the body of `f`, and the second part uses it. -/
theorem lower_inPlace_append_nested :
    let o : Options := ⟨.inPlace, none, true⟩
    let word (name : String) : Token := ⟨⟨"a", 0⟩, .identifier name⟩
    let one : Token := ⟨⟨"a", 1⟩, .intLiteral 1⟩
    let ts : List Token := [word "macro", word "f", word "macro", word "g", one, word "end",
      word "f", word "end", word "if", word "g", word "end"]
    let ds : List Token := [word "macro", word "f", word "macro", word "g", one, word "end",
      word "macro", word "g", one, word "end"]
    let us : List Token := [word "if", word "g", word "end"]
    let block (base : Nat) : List Operation := [⟨.ifBlock, none, some (base + 2), ⟨"a", 0⟩⟩,
      .pushInt 1 ⟨"a", 1⟩, ⟨.endBlock, none, some (base + 3), ⟨"a", 0⟩⟩]
    (lower o ts).result = .ok ⟨(block 0).toArray⟩ ∧ Writes (finalMacros o ts).entries ds ∧
      (lower o (ds ++ us)).result = .ok ⟨(block 0).toArray⟩ ∧
      (lower o (ts ++ us)).result = .ok ⟨(block 0 ++ block 3).toArray⟩ := by
  intro o word one ts ds us block
  have hts : ∃ mvs s, Path o (start ts) mvs s ∧ s.waiting = [] ∧
      s.assembly.finish = .ok ⟨(block 0).toArray⟩ ∧ Writes s.macros.entries ds :=
    ⟨_, _, .cons (.define rfl rfl rfl rfl rfl) (.cons (.expand rfl rfl (by decide) nofun)
      (.cons (.define rfl rfl rfl rfl rfl) (.cons (.emit rfl rfl rfl nofun rfl)
        (.cons (.expand rfl rfl (by decide) nofun) (.cons (.emit rfl rfl rfl nofun rfl)
          (.cons (.emit rfl rfl rfl nofun rfl) (.nil _))))))), rfl, rfl,
      .cons rfl rfl rfl (.cons rfl rfl rfl .nil)⟩
  have hus : ∃ mvs s, Path o (start (ds ++ us)) mvs s ∧ s.waiting = [] ∧
      s.assembly.finish = .ok ⟨(block 0).toArray⟩ :=
    ⟨_, _, .cons (.define rfl rfl rfl rfl rfl) (.cons (.define rfl rfl rfl rfl rfl)
      (.cons (.emit rfl rfl rfl nofun rfl) (.cons (.expand rfl rfl (by decide) nofun)
        (.cons (.emit rfl rfl rfl nofun rfl) (.cons (.emit rfl rfl rfl nofun rfl) (.nil _)))))),
      rfl, rfl⟩
  obtain ⟨mvs, s, hpath, hend, hfinish, hwrites⟩ := hts
  obtain ⟨mvs', s', hpath', hend', hfinish'⟩ := hus
  have hlower : (lower o ts).result = .ok ⟨(block 0).toArray⟩ :=
    run_ok_of_path hpath hend hfinish
  have hlower' : (lower o (ds ++ us)).result = .ok ⟨(block 0).toArray⟩ :=
    run_ok_of_path hpath' hend' hfinish'
  rw [← last_eq_of_path hpath (.inl hend)] at hwrites
  refine ⟨hlower, hwrites, hlower', ?_⟩
  rw [(lower_inPlace_append hlower hwrites).1, hlower']
  simp [block, Except.map, Program.linkAfter, Program.shift, Program.size, Operation.shift,
    Operation.pushInt]

end StackLang
