import StackLang.Compile
import StackLang.Proofs.Code.Lowered
import StackLang.Proofs.Lowering.Fault
import StackLang.Proofs.Program.Check

/-!
# The check finds nothing

The check on programs and the assembly of programs are independent of each other. They agree:

**Theorem (`sound_of_lower`).** All operations of a lowered program are sound. Its jumps are those
of nested code, which gives one to every control operation but `while` (`Code.forall₂_hasJump`) and
none that leads further than its end (`Code.mem_jumps`). Its literals are those of the tokens.

**Theorem (`lower_passes_check`).** So the check never finds anything in a compilation, and whether
it is switched on makes no difference to the result.
-/

namespace StackLang

/-! ## The jumps of nested code -/

theorem PlainOpcode.hasJump_eq_false (o : PlainOpcode) : o.opcode.hasJump = false := by
  obtain ⟨opcode, hcontrol, -⟩ := o
  cases opcode <;> first | rfl | cases hcontrol

/-- In nested code exactly the control opcodes other than `while` have a jump. -/
theorem Code.forall₂_hasJump (c : Code) (base : Nat) :
    List.Forall₂ (fun o jump => o.hasJump = jump.isSome) c.opcodes (c.jumps base) := by
  induction c generalizing base with
  | empty => exact .nil
  | plain o rest ih => exact .cons o.hasJump_eq_false (ih _)
  | branch body rest ihb ihr => exact .cons rfl (List.rel_append (ihb _) (.cons rfl (ihr _)))
  | choice yes no rest ihy ihn ihr =>
    exact .cons rfl (List.rel_append (ihy _)
      (.cons rfl (List.rel_append (ihn _) (.cons rfl (ihr _)))))
  | loop condition body rest ihc ihb ihr =>
    exact .cons rfl (List.rel_append (ihc _)
      (.cons rfl (List.rel_append (ihb _) (.cons rfl (ihr _)))))

theorem exists_of_mem_link {ops : List Operation} {jumps : List (Option Nat)}
    {r : Opcode → Option Nat → Prop} (h : List.Forall₂ r (ops.map (·.opcode)) jumps)
    {op : Operation} (hop : op ∈ link ops jumps) :
    ∃ op₀ ∈ ops, ∃ jump ∈ jumps, op = { op₀ with jump } ∧ r op₀.opcode jump := by
  induction ops generalizing jumps with
  | nil => cases hop
  | cons op₁ ops ih =>
    cases h with
    | @cons _ jump₁ _ jumps hr hrest =>
      rcases List.mem_cons.1 hop with rfl | hop
      · exact ⟨op₁, List.mem_cons_self, jump₁, List.mem_cons_self, rfl, hr⟩
      · obtain ⟨op₀, hop₀, jump, hjump, heq, hr⟩ := ih hrest hop
        exact ⟨op₀, List.mem_cons_of_mem _ hop₀, jump, List.mem_cons_of_mem _ hjump, heq, hr⟩

/-! ## The literals of tokens -/

/-- The operation of a token has the literal that its opcode asks for. -/
theorem Token.immediateFault?_of_operation {t : Token} {op : Operation}
    (h : t.operation = .ok op) : op.immediateFault? = none := by
  unfold operation at h
  split at h
  · cases h; rfl
  · cases h; rfl
  · next name hword =>
    split at h
    · next opcode hop =>
      cases h
      have hname : opcode.word? = some name := Opcode.ofWord?_eq_some_iff.1 hop
      cases opcode <;> first | rfl | cases hname
    · cases h

/-! ## Lowered programs -/

/-- **All operations of a lowered program are sound**, and none starts a definition. -/
theorem sound_of_lower {o : Options} {ts : List Token} {p : Program}
    (h : (lower o ts).result = .ok p) {op : Operation} (hop : op ∈ p.operations.toList) :
    op.opcode ≠ .macroWord ∧ op.Sound p.size := by
  obtain ⟨c, ops, hops, rfl, htokens⟩ := exists_code_of_lower h
  obtain ⟨op₀, hop₀, jump, hjump, rfl, hhasJump⟩ :=
    exists_of_mem_link (hops ▸ c.forall₂_hasJump 0) hop
  obtain ⟨t, ht⟩ := htokens op₀ hop₀
  obtain ⟨hint, hstr, hplain⟩ :=
    Operation.immediateFault?_eq_none_iff.1 (Token.immediateFault?_of_operation ht)
  refine ⟨fun hmacro => ?_, ?_, ?_, hint, hstr, hplain⟩
  · refine c.macroWord_notMem_opcodes ?_
    rw [← hops]
    exact List.mem_map.2 ⟨op₀, hop₀, hmacro⟩
  · intro htrue
    obtain ⟨target, rfl⟩ := Option.isSome_iff_exists.1 (hhasJump.symm.trans htrue)
    have hle := (Code.mem_jumps hjump).2
    rw [Nat.zero_add] at hle
    exact ⟨target, hle.trans (Code.size_program hops).ge, rfl⟩
  · intro hfalse
    rw [hfalse] at hhasJump
    exact Option.isNone_iff_eq_none.1 (Option.isSome_eq_false_iff.1 hhasJump.symm)

/-! ## The check in a compilation -/

/-- Whether the program will be checked makes no difference to a lowering. -/
theorem Lowering.run_verify (o : Options) (verify : Bool) (s : Lowering) (log : Array Event) :
    run { o with verify } s log = run o s log := by
  fun_induction run o s log with
  | case1 s log hq => exact run_of_queue_nil (Queue.pop?_eq_none_iff.1 hq)
  | case2 s log i queue hq e h => exact run_of_advance_error (Queue.pop?_eq_some_iff.1 hq) h
  | case3 s log i queue hq s' event h ih =>
    rw [run_of_advance_ok (o := { o with verify }) (Queue.pop?_eq_some_iff.1 hq) h, ih]

theorem lower_verify (o : Options) (verify : Bool) (ts : List Token) :
    lower { o with verify } ts = lower o ts :=
  Lowering.run_verify o verify (.start ts) #[]

/-- **The check never finds anything**: compiling returns what lowering returns. -/
theorem compile_result (o : Options) (file text : String) :
    (compile o file text).result = (lower o (tokenize file text)).result := by
  unfold compile Outcome.after handOver
  dsimp only
  split
  · rfl
  · next p hp =>
    have hnil : p.violations = [] :=
      Program.violations_eq_nil_iff.2 fun op hop => (sound_of_lower hp hop).2
    rw [hnil]
    split <;> rfl

/-- A source whose tokens lead to an empty queue is accepted, if its blocks are closed. -/
theorem compile_ok_of_path {o : Options} {file text : String} {ts : List Token}
    {mvs : List Lowering.Move} {s : Lowering} {p : Program} (htokens : tokenize file text = ts)
    (hpath : Lowering.Path o (.start ts) mvs s) (hend : s.waiting = [])
    (hfinish : s.assembly.finish = .ok p) : (compile o file text).result = .ok p := by
  rw [compile_result, htokens, lower]
  exact Lowering.run_ok_of_path hpath hend hfinish

/-- A source whose tokens lead to a failure is rejected with it. -/
theorem compile_error_of_path {o : Options} {file text : String} {ts : List Token}
    {mvs : List Lowering.Move} {s : Lowering} {e : CompileError} (htokens : tokenize file text = ts)
    (hpath : Lowering.Path o (.start ts) mvs s) (hfails : Lowering.Fails o s e) :
    (compile o file text).result = .error e := by
  rw [compile_result, htokens, lower, Lowering.run_of_path hpath, Lowering.run_of_fails hfails]

/-- **Lowering satisfies the check.** A lowered program has no violation: its control operations
other than `while` have jumps that do not lead further than its end, and its literal pushes have
literals of their kind; no other operation has a jump or a literal, and none starts a definition.
So the check changes the result of no compilation, and no compilation ends in an internal error. -/
theorem lower_passes_check (o : Options) :
    (∀ ts p, (lower o ts).result = .ok p →
      p.violations = [] ∧
        ∀ op ∈ p.operations.toList, op.opcode ≠ .macroWord ∧ op.Sound p.size) ∧
    ∀ file text,
      (compile { o with verify := true } file text).result =
        (compile { o with verify := false } file text).result ∧
      ∀ report, (compile o file text).result ≠ .error (.internal report) := by
  refine ⟨fun ts p hp => ?_, fun file text => ⟨?_, fun report h => ?_⟩⟩
  · have hsound : ∀ op ∈ p.operations.toList, op.opcode ≠ .macroWord ∧ op.Sound p.size :=
      fun op hop => sound_of_lower hp hop
    exact ⟨Program.violations_eq_nil_iff.2 fun op hop => (hsound op hop).2, hsound⟩
  · rw [compile_result, compile_result, lower_verify o true, lower_verify o false]
  · rw [compile_result] at h
    obtain ⟨location, hlocation⟩ := Lowering.exists_location_of_run_error h
    cases hlocation

/-- `macro f while dup end f do 1 end`, where the `while` comes from the body of `f`. -/
theorem lower_passes_check_loop :
    let o : Options := ⟨.inPlace, some 1, true⟩
    let word (name : String) : Token := ⟨⟨"a", 0⟩, .identifier name⟩
    let ts : List Token := [word "macro", word "f", word "while", word "dup", word "end",
      word "f", word "do", ⟨⟨"a", 1⟩, .intLiteral 1⟩, word "end"]
    let p : Program := ⟨#[.plain .whileLoop ⟨"a", 0⟩, .plain .dup ⟨"a", 0⟩,
      ⟨.doLoop, none, some 5, ⟨"a", 0⟩⟩, .pushInt 1 ⟨"a", 1⟩, ⟨.endBlock, none, some 0, ⟨"a", 0⟩⟩]⟩
    (lower o ts).result = .ok p ∧ p.violations = [] ∧
      ∀ op ∈ p.operations.toList, op.opcode ≠ .macroWord ∧ op.Sound p.size := by
  intro o word ts p
  have hpath : ∃ mvs s, Lowering.Path o (.start ts) mvs s ∧ s.waiting = [] ∧
      s.assembly.finish = .ok p :=
    ⟨_, _, .cons (.define rfl rfl rfl rfl rfl)
      (.cons (.expand rfl rfl (by decide) fun _ h => by cases h; decide)
        (.cons (.emit rfl rfl rfl nofun rfl) (.cons (.emit rfl rfl rfl nofun rfl)
          (.cons (.emit rfl rfl rfl nofun rfl) (.cons (.emit rfl rfl rfl nofun rfl)
            (.cons (.emit rfl rfl rfl nofun rfl) (.nil _))))))), rfl, rfl⟩
  obtain ⟨mvs, s, hpath, hend, hfinish⟩ := hpath
  have hlower : (lower o ts).result = .ok p := Lowering.run_ok_of_path hpath hend hfinish
  exact ⟨hlower, (lower_passes_check o).1 ts p hlower⟩

end StackLang
