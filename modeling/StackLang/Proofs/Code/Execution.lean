import Mathlib.Logic.Relation
import StackLang.Proofs.Code.Lowered

/-!
# Flat jumps and nested blocks mean the same

A flat program runs on a machine with a program counter (`Program.step?`). A plain operation
changes the state and falls through, `while` falls through, `if` and `do` fall through or jump as
a test of the state decides, `else` and `end` jump. What plain operations and tests do is left
open (`Meaning`), and every address may have a meaning of its own.

Nested code runs as structured programs do (`Code.Exec`): a conditional runs the part that the
test selects, a loop runs its condition and then its body for as long as the test holds.

**Theorem (`lower_runs_iff_exec`).** A program that lowering returns reaches its end in a state
exactly if its nested code ends there, and it never leaves the program for any other address.

From left to right the proof is by strong induction on the number of steps to the end: the code at
the program counter is executed first, and fewer steps remain. From right to left it is an
induction on the execution, for code at any address.
-/

namespace StackLang

universe u

/-- What the plain operations and the tests of a program do, address by address. -/
structure Meaning (σ : Type u) where
  act : Nat → σ → σ
  test : Nat → σ → Bool

variable {σ : Type u}

/-! ## The machine -/

namespace Program

/-- One step from an address and a state; there is none past the end of the program. -/
def step? (p : Program) (m : Meaning σ) : Nat × σ → Option (Nat × σ)
  | (pc, s) =>
    match p.get? pc with
    | none => none
    | some op =>
      match op.opcode with
      | .whileLoop => some (pc + 1, s)
      | .ifBlock | .doLoop => if m.test pc s then some (pc + 1, s) else op.jump.map (·, s)
      | .elseBlock | .endBlock => op.jump.map (·, s)
      | _ => some (pc + 1, m.act pc s)

/-- The machine gets from one configuration to another. -/
def Reaches (p : Program) (m : Meaning σ) : Nat × σ → Nat × σ → Prop :=
  Relation.ReflTransGen fun x y => p.step? m x = some y

/-- The configuration after `n` steps. -/
def after? (p : Program) (m : Meaning σ) : Nat → Nat × σ → Option (Nat × σ)
  | 0, x => some x
  | n + 1, x => (p.step? m x).bind (p.after? m n)

theorem reaches_iff {p : Program} {m : Meaning σ} {x y : Nat × σ} :
    p.Reaches m x y ↔ ∃ n, p.after? m n x = some y := by
  constructor
  · intro h
    induction h using Relation.ReflTransGen.head_induction_on with
    | refl => exact ⟨0, rfl⟩
    | head hstep _ ih =>
      obtain ⟨n, hn⟩ := ih
      exact ⟨n + 1, by rw [after?, hstep, Option.bind_some, hn]⟩
  · rintro ⟨n, hn⟩
    induction n generalizing x with
    | zero => cases hn; exact .refl
    | succ n ih =>
      obtain ⟨x', hstep, hrest⟩ := Option.bind_eq_some_iff.1 hn
      exact .head hstep (ih hrest)

/-- The operation at `addr` has this opcode and this jump. -/
def At (p : Program) (addr : Nat) (opcode : Opcode) (jump : Option Nat) : Prop :=
  ∃ op, p.get? addr = some op ∧ op.opcode = opcode ∧ op.jump = jump

section

variable {p : Program} {m : Meaning σ} {pc target : Nat} {s : σ}

theorem At.plain (o : PlainOpcode) (h : p.At pc o.opcode none) :
    p.step? m (pc, s) = some (pc + 1, m.act pc s) := by
  obtain ⟨op, hop, hopcode, -⟩ := h
  have hc := o.notControl
  simp only [step?, hop]
  cases hcases : op.opcode with
  | ifBlock | elseBlock | endBlock | whileLoop | doLoop =>
    rw [← hopcode, hcases] at hc
    cases hc
  | _ => rfl

theorem At.while (h : p.At pc .whileLoop none) : p.step? m (pc, s) = some (pc + 1, s) := by
  obtain ⟨op, hop, hopcode, -⟩ := h
  simp only [step?, hop, hopcode]

theorem At.if (h : p.At pc .ifBlock (some target)) :
    p.step? m (pc, s) = some (if m.test pc s then pc + 1 else target, s) := by
  obtain ⟨op, hop, hopcode, hjump⟩ := h
  simp only [step?, hop, hopcode, hjump]
  split <;> rfl

theorem At.do (h : p.At pc .doLoop (some target)) :
    p.step? m (pc, s) = some (if m.test pc s then pc + 1 else target, s) := by
  obtain ⟨op, hop, hopcode, hjump⟩ := h
  simp only [step?, hop, hopcode, hjump]
  split <;> rfl

theorem At.else (h : p.At pc .elseBlock (some target)) : p.step? m (pc, s) = some (target, s) := by
  obtain ⟨op, hop, hopcode, hjump⟩ := h
  simp only [step?, hop, hopcode, hjump, Option.map_some]

theorem At.end (h : p.At pc .endBlock (some target)) : p.step? m (pc, s) = some (target, s) := by
  obtain ⟨op, hop, hopcode, hjump⟩ := h
  simp only [step?, hop, hopcode, hjump, Option.map_some]

/-- The last of `n` steps to an address outside of the program is not the first of all. -/
theorem after_of_step {x y z : Nat × σ} {n : Nat} (hstep : p.step? m x = some y)
    (hend : p.get? z.1 = none) (h : p.after? m n x = some z) :
    ∃ k, n = k + 1 ∧ p.after? m k y = some z := by
  cases n with
  | zero =>
    cases h
    simp only [step?, hend] at hstep
    cases hstep
  | succ k =>
    rw [after?, hstep] at h
    exact ⟨k, rfl, h⟩

/-- A step goes to the next address or to the jump of the operation. -/
theorem next_of_step {op : Operation} {y : Nat × σ} (hop : p.get? pc = some op)
    (h : p.step? m (pc, s) = some y) : y.1 = pc + 1 ∨ op.jump = some y.1 := by
  have hjump : ∀ {t : σ}, op.jump.map (·, t) = some y → op.jump = some y.1 := by
    intro t ht
    obtain ⟨target, htarget, rfl⟩ := Option.map_eq_some_iff.1 ht
    exact htarget
  simp only [step?, hop] at h
  split at h
  · cases h; exact .inl rfl
  · split at h
    · cases h; exact .inl rfl
    · exact .inr (hjump h)
  · split at h
    · cases h; exact .inl rfl
    · exact .inr (hjump h)
  · exact .inr (hjump h)
  · exact .inr (hjump h)
  · cases h; exact .inl rfl

end

/-! ## Code in a program -/

/-- The operations from the address `base` on have these opcodes and jumps. -/
def Spells (p : Program) : Nat → List (Opcode × Option Nat) → Prop
  | _, [] => True
  | base, (opcode, jump) :: entries => p.At base opcode jump ∧ p.Spells (base + 1) entries

theorem spells_append {p : Program} {base next : Nat} {l l' : List (Opcode × Option Nat)}
    (h : p.Spells base (l ++ l')) (hnext : next = base + l.length) :
    p.Spells base l ∧ p.Spells next l' := by
  induction l generalizing base with
  | nil => rw [hnext]; exact ⟨trivial, h⟩
  | cons entry l ih =>
    obtain ⟨hl, hl'⟩ := ih h.2 (by rw [hnext, List.length_cons]; omega)
    exact ⟨⟨h.1, hl⟩, hl'⟩

theorem spells_of_append (p : Program) (before : List Operation) {after : List Operation}
    (h : p.operations.toList = before ++ after) :
    p.Spells before.length (after.map fun op => (op.opcode, op.jump)) := by
  induction after generalizing before with
  | nil => trivial
  | cons op after ih =>
    refine ⟨⟨op, ?_, rfl, rfl⟩, ?_⟩
    · show p.operations[before.length]? = some op
      rw [← Array.getElem?_toList, h]
      simp
    · have := ih (before ++ [op]) (by rw [h, List.append_assoc]; rfl)
      rwa [List.length_append] at this

/-- The code `c` lies in the program from the address `base` on. -/
def Has (p : Program) : Nat → Code → Prop
  | _, .empty => True
  | base, .plain o rest => p.At base o.opcode none ∧ p.Has (base + 1) rest
  | base, .branch body rest =>
    let close := base + 1 + body.size
    p.At base .ifBlock (some close) ∧ p.Has (base + 1) body ∧
      p.At close .endBlock (some (close + 1)) ∧ p.Has (close + 1) rest
  | base, .choice yes no rest =>
    let middle := base + 1 + yes.size
    let close := middle + 1 + no.size
    p.At base .ifBlock (some (middle + 1)) ∧ p.Has (base + 1) yes ∧
      p.At middle .elseBlock (some close) ∧ p.Has (middle + 1) no ∧
      p.At close .endBlock (some (close + 1)) ∧ p.Has (close + 1) rest
  | base, .loop condition body rest =>
    let middle := base + 1 + condition.size
    let close := middle + 1 + body.size
    p.At base .whileLoop none ∧ p.Has (base + 1) condition ∧
      p.At middle .doLoop (some (close + 1)) ∧ p.Has (middle + 1) body ∧
      p.At close .endBlock (some base) ∧ p.Has (close + 1) rest

theorem has_of_spells {p : Program} {c : Code} {base : Nat}
    (h : p.Spells base (c.opcodes.zip (c.jumps base))) : p.Has base c := by
  have hlength : ∀ (d : Code) (start : Nat), d.opcodes.length = (d.jumps start).length := by
    intro d start
    rw [Code.length_opcodes, Code.length_jumps]
  have hzip : ∀ (d : Code) (start : Nat), (d.opcodes.zip (d.jumps start)).length = d.size := by
    intro d start
    rw [List.length_zip, ← hlength, Nat.min_self, Code.length_opcodes]
  induction c generalizing base with
  | empty => trivial
  | plain o rest ih => exact ⟨h.1, ih h.2⟩
  | branch body rest ihb ihr =>
    simp only [Code.opcodes, Code.jumps, List.zip_cons_cons, List.zip_append (hlength _ _)] at h
    obtain ⟨hif, h⟩ := h
    obtain ⟨hbody, hend, hrest⟩ := spells_append h (by rw [hzip])
    exact ⟨hif, ihb hbody, hend, ihr hrest⟩
  | choice yes no rest ihy ihn ihr =>
    simp only [Code.opcodes, Code.jumps, List.zip_cons_cons, List.zip_append (hlength _ _)] at h
    obtain ⟨hif, h⟩ := h
    obtain ⟨hyes, helse, h⟩ := spells_append h (by rw [hzip])
    obtain ⟨hno, hend, hrest⟩ := spells_append h (by rw [hzip])
    exact ⟨hif, ihy hyes, helse, ihn hno, hend, ihr hrest⟩
  | loop condition body rest ihc ihb ihr =>
    simp only [Code.opcodes, Code.jumps, List.zip_cons_cons, List.zip_append (hlength _ _)] at h
    obtain ⟨hwhile, h⟩ := h
    obtain ⟨hcondition, hdo, h⟩ := spells_append h (by rw [hzip])
    obtain ⟨hbody, hend, hrest⟩ := spells_append h (by rw [hzip])
    exact ⟨hwhile, ihc hcondition, hdo, ihb hbody, hend, ihr hrest⟩

/-- A program has the code that its opcodes and jumps are those of. -/
theorem has_of_opcodes {p : Program} {c : Code} (hopcodes : p.opcodes = c.opcodes)
    (hjumps : p.jumps = c.jumps 0) : p.Has 0 c := by
  refine has_of_spells ?_
  rw [← hopcodes, ← hjumps, opcodes, jumps, List.zip_map']
  exact p.spells_of_append [] rfl

end Program

/-! ## Nested execution -/

/-- Code at the address `base` turns one state into another: a conditional runs the part that its
test selects, a loop runs its condition, and as long as the test then holds its body and itself. -/
inductive Code.Exec (m : Meaning σ) : Nat → Code → σ → σ → Prop
  | empty {base : Nat} {s : σ} : Exec m base .empty s s
  | plain {base : Nat} {o : PlainOpcode} {rest : Code} {s s' : σ}
      (hrest : Exec m (base + 1) rest (m.act base s) s') : Exec m base (.plain o rest) s s'
  | branchTrue {base : Nat} {body rest : Code} {s s₁ s' : σ} (htest : m.test base s = true)
      (hbody : Exec m (base + 1) body s s₁)
      (hrest : Exec m (base + 1 + body.size + 1) rest s₁ s') :
      Exec m base (.branch body rest) s s'
  | branchFalse {base : Nat} {body rest : Code} {s s' : σ} (htest : m.test base s = false)
      (hrest : Exec m (base + 1 + body.size + 1) rest s s') :
      Exec m base (.branch body rest) s s'
  | choiceTrue {base : Nat} {yes no rest : Code} {s s₁ s' : σ} (htest : m.test base s = true)
      (hyes : Exec m (base + 1) yes s s₁)
      (hrest : Exec m (base + 1 + yes.size + 1 + no.size + 1) rest s₁ s') :
      Exec m base (.choice yes no rest) s s'
  | choiceFalse {base : Nat} {yes no rest : Code} {s s₁ s' : σ} (htest : m.test base s = false)
      (hno : Exec m (base + 1 + yes.size + 1) no s s₁)
      (hrest : Exec m (base + 1 + yes.size + 1 + no.size + 1) rest s₁ s') :
      Exec m base (.choice yes no rest) s s'
  | loopStop {base : Nat} {condition body rest : Code} {s s₁ s' : σ}
      (hcondition : Exec m (base + 1) condition s s₁)
      (htest : m.test (base + 1 + condition.size) s₁ = false)
      (hrest : Exec m (base + 1 + condition.size + 1 + body.size + 1) rest s₁ s') :
      Exec m base (.loop condition body rest) s s'
  | loopAgain {base : Nat} {condition body rest : Code} {s s₁ s₂ s' : σ}
      (hcondition : Exec m (base + 1) condition s s₁)
      (htest : m.test (base + 1 + condition.size) s₁ = true)
      (hbody : Exec m (base + 1 + condition.size + 1) body s₁ s₂)
      (hagain : Exec m base (.loop condition body rest) s₂ s') :
      Exec m base (.loop condition body rest) s s'

variable {p : Program} {m : Meaning σ}

/-! ## From nested execution to the machine -/

/-- The machine follows a nested execution, wherever in a program the code lies. -/
theorem Code.Exec.reaches {base : Nat} {c : Code} {s s' : σ} (h : c.Exec m base s s')
    (hp : p.Has base c) : p.Reaches m (base, s) (base + c.size, s') := by
  induction h with
  | empty => exact .refl
  | @plain base o rest s s' _ ih =>
    obtain ⟨hat, hrest⟩ := hp
    have hlast := ih hrest
    rw [show base + 1 + rest.size = base + (Code.plain o rest).size by
      simp only [Code.size]; omega] at hlast
    exact .head hat.plain hlast
  | @branchTrue base body rest s s₁ s' htest _ _ ihb ihr =>
    obtain ⟨hif, hbody, hend, hrest⟩ := hp
    have hlast := ihr hrest
    rw [show base + 1 + body.size + 1 + rest.size = base + (Code.branch body rest).size by
      simp only [Code.size]; omega] at hlast
    have hfirst : p.step? m (base, s) = some (base + 1, s) := by rw [hif.if, htest]; rfl
    exact .head hfirst ((ihb hbody).trans (.head hend.end hlast))
  | @branchFalse base body rest s s' htest _ ihr =>
    obtain ⟨hif, hbody, hend, hrest⟩ := hp
    have hlast := ihr hrest
    rw [show base + 1 + body.size + 1 + rest.size = base + (Code.branch body rest).size by
      simp only [Code.size]; omega] at hlast
    have hfirst : p.step? m (base, s) = some (base + 1 + body.size, s) := by
      rw [hif.if, htest]; rfl
    exact .head hfirst (.head hend.end hlast)
  | @choiceTrue base yes no rest s s₁ s' htest _ _ ihy ihr =>
    obtain ⟨hif, hyes, helse, hno, hend, hrest⟩ := hp
    have hlast := ihr hrest
    rw [show base + 1 + yes.size + 1 + no.size + 1 + rest.size =
      base + (Code.choice yes no rest).size by simp only [Code.size]; omega] at hlast
    have hfirst : p.step? m (base, s) = some (base + 1, s) := by rw [hif.if, htest]; rfl
    exact .head hfirst ((ihy hyes).trans (.head helse.else (.head hend.end hlast)))
  | @choiceFalse base yes no rest s s₁ s' htest _ _ ihn ihr =>
    obtain ⟨hif, hyes, helse, hno, hend, hrest⟩ := hp
    have hlast := ihr hrest
    rw [show base + 1 + yes.size + 1 + no.size + 1 + rest.size =
      base + (Code.choice yes no rest).size by simp only [Code.size]; omega] at hlast
    have hfirst : p.step? m (base, s) = some (base + 1 + yes.size + 1, s) := by
      rw [hif.if, htest]; rfl
    exact .head hfirst ((ihn hno).trans (.head hend.end hlast))
  | @loopStop base condition body rest s s₁ s' _ htest _ ihc ihr =>
    obtain ⟨hwhile, hcondition, hdo, hbody, hend, hrest⟩ := hp
    have hlast := ihr hrest
    rw [show base + 1 + condition.size + 1 + body.size + 1 + rest.size =
      base + (Code.loop condition body rest).size by simp only [Code.size]; omega] at hlast
    have hleave : p.step? m (base + 1 + condition.size, s₁) =
        some (base + 1 + condition.size + 1 + body.size + 1, s₁) := by rw [hdo.do, htest]; rfl
    exact .head hwhile.while ((ihc hcondition).trans (.head hleave hlast))
  | @loopAgain base condition body rest s s₁ s₂ s' _ htest _ _ ihc ihb ihagain =>
    have hlast := ihagain hp
    obtain ⟨hwhile, hcondition, hdo, hbody, hend, hrest⟩ := hp
    have henter : p.step? m (base + 1 + condition.size, s₁) =
        some (base + 1 + condition.size + 1, s₁) := by rw [hdo.do, htest]; rfl
    exact .head hwhile.while
      ((ihc hcondition).trans (.head henter ((ihb hbody).trans (.head hend.end hlast))))

/-! ## From the machine to nested execution -/

/-- A run of the machine from the start of some code to an address outside of the program executes
the code first, and has no more steps left than before. -/
theorem Code.exec_of_after {n base : Nat} {c : Code} {s : σ} {z : Nat × σ} (hp : p.Has base c)
    (hend : p.get? z.1 = none) (h : p.after? m n (base, s) = some z) :
    ∃ k u, k ≤ n ∧ c.Exec m base s u ∧ p.after? m k (base + c.size, u) = some z := by
  induction n using Nat.strongRecOn generalizing base c s with
  | ind n ih =>
    cases c with
    | empty => exact ⟨n, s, Nat.le_refl n, .empty, h⟩
    | plain o rest =>
      obtain ⟨hat, hrest⟩ := hp
      obtain ⟨n₁, rfl, h₁⟩ := Program.after_of_step hat.plain hend h
      obtain ⟨k, u, hk, hexec, h₂⟩ := ih n₁ (by omega) hrest h₁
      refine ⟨k, u, by omega, .plain hexec, ?_⟩
      rwa [show base + (Code.plain o rest).size = base + 1 + rest.size by
        simp only [Code.size]; omega]
    | branch body rest =>
      obtain ⟨hif, hbody, hclose, hrest⟩ := hp
      have hsize : base + (Code.branch body rest).size = base + 1 + body.size + 1 + rest.size := by
        simp only [Code.size]; omega
      obtain ⟨n₁, rfl, h₁⟩ := Program.after_of_step hif.if hend h
      cases htest : m.test base s with
      | true =>
        rw [htest, if_pos rfl] at h₁
        obtain ⟨k, s₁, hk, hexec, h₂⟩ := ih n₁ (by omega) hbody h₁
        obtain ⟨n₂, rfl, h₃⟩ := Program.after_of_step hclose.end hend h₂
        obtain ⟨k', u, hk', hexec', h₄⟩ := ih n₂ (by omega) hrest h₃
        exact ⟨k', u, by omega, .branchTrue htest hexec hexec', by rwa [hsize]⟩
      | false =>
        rw [htest, if_neg Bool.false_ne_true] at h₁
        obtain ⟨n₂, rfl, h₂⟩ := Program.after_of_step hclose.end hend h₁
        obtain ⟨k, u, hk, hexec, h₃⟩ := ih n₂ (by omega) hrest h₂
        exact ⟨k, u, by omega, .branchFalse htest hexec, by rwa [hsize]⟩
    | choice yes no rest =>
      obtain ⟨hif, hyes, helse, hno, hclose, hrest⟩ := hp
      have hsize : base + (Code.choice yes no rest).size =
          base + 1 + yes.size + 1 + no.size + 1 + rest.size := by
        simp only [Code.size]; omega
      obtain ⟨n₁, rfl, h₁⟩ := Program.after_of_step hif.if hend h
      cases htest : m.test base s with
      | true =>
        rw [htest, if_pos rfl] at h₁
        obtain ⟨k, s₁, hk, hexec, h₂⟩ := ih n₁ (by omega) hyes h₁
        obtain ⟨n₂, rfl, h₃⟩ := Program.after_of_step helse.else hend h₂
        obtain ⟨n₃, rfl, h₄⟩ := Program.after_of_step hclose.end hend h₃
        obtain ⟨k', u, hk', hexec', h₅⟩ := ih n₃ (by omega) hrest h₄
        exact ⟨k', u, by omega, .choiceTrue htest hexec hexec', by rwa [hsize]⟩
      | false =>
        rw [htest, if_neg Bool.false_ne_true] at h₁
        obtain ⟨k, s₁, hk, hexec, h₂⟩ := ih n₁ (by omega) hno h₁
        obtain ⟨n₂, rfl, h₃⟩ := Program.after_of_step hclose.end hend h₂
        obtain ⟨k', u, hk', hexec', h₄⟩ := ih n₂ (by omega) hrest h₃
        exact ⟨k', u, by omega, .choiceFalse htest hexec hexec', by rwa [hsize]⟩
    | loop condition body rest =>
      have hloop := hp
      obtain ⟨hwhile, hcondition, hdo, hbody, hclose, hrest⟩ := hp
      have hsize : base + (Code.loop condition body rest).size =
          base + 1 + condition.size + 1 + body.size + 1 + rest.size := by
        simp only [Code.size]; omega
      obtain ⟨n₁, rfl, h₁⟩ := Program.after_of_step hwhile.while hend h
      obtain ⟨k, s₁, hk, hexec, h₂⟩ := ih n₁ (by omega) hcondition h₁
      obtain ⟨n₂, rfl, h₃⟩ := Program.after_of_step hdo.do hend h₂
      cases htest : m.test (base + 1 + condition.size) s₁ with
      | true =>
        rw [htest, if_pos rfl] at h₃
        obtain ⟨k', s₂, hk', hexec', h₄⟩ := ih n₂ (by omega) hbody h₃
        obtain ⟨n₃, rfl, h₅⟩ := Program.after_of_step hclose.end hend h₄
        -- the machine is back at the `while`, with fewer steps left
        obtain ⟨k'', u, hk'', hagain, h₆⟩ := ih n₃ (by omega) hloop h₅
        exact ⟨k'', u, by omega, .loopAgain hexec htest hexec' hagain, h₆⟩
      | false =>
        rw [htest, if_neg Bool.false_ne_true] at h₃
        obtain ⟨k', u, hk', hexec', h₄⟩ := ih n₂ (by omega) hrest h₃
        exact ⟨k', u, by omega, .loopStop hexec htest hexec', by rwa [hsize]⟩

/-- In a program that consists of some code, the machine gets to the end exactly as the code
does. -/
theorem Code.reaches_end_iff {c : Code} (hp : p.Has 0 c) (hsize : p.size = c.size) {s s' : σ} :
    p.Reaches m (0, s) (p.size, s') ↔ c.Exec m 0 s s' := by
  have hend : p.get? p.size = none := Array.getElem?_eq_none (Nat.le_refl p.size)
  constructor
  · intro h
    obtain ⟨n, hn⟩ := Program.reaches_iff.1 h
    obtain ⟨k, u, -, hexec, hafter⟩ := Code.exec_of_after hp hend hn
    rw [Nat.zero_add, ← hsize] at hafter
    -- no step leads away from the end, so the code has ended in the state that was reached
    cases k with
    | zero => cases hafter; exact hexec
    | succ k =>
      rw [Program.after?, Program.step?, hend] at hafter
      cases hafter
  · intro h
    have := h.reaches hp
    rwa [Nat.zero_add, ← hsize] at this

/-- In a program that consists of some code, the machine never gets past the end. -/
theorem Code.reaches_le {c : Code} (hjumps : p.jumps = c.jumps 0) (hsize : p.size = c.size)
    {s s' : σ} {pc : Nat} (h : p.Reaches m (0, s) (pc, s')) : pc ≤ p.size := by
  -- the last step alone decides: it leads to the next operation, or where a jump leads
  cases h with
  | refl => exact Nat.zero_le p.size
  | @tail x _ _ hstep =>
    cases hop : p.get? x.1 with
    | none =>
      simp only [Program.step?, hop] at hstep
      cases hstep
    | some op =>
      obtain rfl | hjump : pc = x.1 + 1 ∨ op.jump = some pc := Program.next_of_step hop hstep
      · exact (Array.getElem?_eq_some_iff.1 hop).1
      · have hmem : some pc ∈ c.jumps 0 := by
          rw [← hjumps, ← hjump, Program.jumps]
          exact List.mem_map_of_mem (Array.mem_toList_iff.2 (Array.mem_of_getElem? hop))
        have := (Code.mem_jumps hmem).2
        omega

/-- **Flat jumps mean nested blocks.** A lowered program spells exactly one nested code; its
machine gets to the end in a state exactly if this code ends there, whatever plain operations and
tests mean, and it never gets past the end. -/
theorem lower_runs_iff_exec {o : Options} {ts : List Token} {p : Program}
    (h : (lower o ts).result = .ok p) :
    ∃ c : Code, (∀ d : Code, d.opcodes = p.opcodes ↔ d = c) ∧
      (∀ (m : Meaning σ) s s', p.Reaches m (0, s) (p.size, s') ↔ c.Exec m 0 s s') ∧
      ∀ (m : Meaning σ) s pc s', p.Reaches m (0, s) (pc, s') → pc ≤ p.size := by
  obtain ⟨c, ops, hops, rfl, -⟩ := exists_code_of_lower h
  have hopcodes := Code.opcodes_program hops
  have hjumps := Code.jumps_program hops
  have hsize := Code.size_program hops
  have hp : (c.program ops).Has 0 c := Program.has_of_opcodes hopcodes hjumps
  refine ⟨c, fun d => ?_, fun m s s' => Code.reaches_end_iff hp hsize,
    fun m s pc s' hreaches => Code.reaches_le hjumps hsize hreaches⟩
  rw [hopcodes]
  exact ⟨fun hd => Code.opcodes_injective hd, fun hd => by rw [hd]⟩

/-- `if 1 end` gets to its end in a state exactly if this nested code ends there. -/
theorem lower_runs_iff_exec_if :
    let ts : List Token := [⟨⟨"a", 0⟩, .identifier "if"⟩, ⟨⟨"a", 1⟩, .intLiteral 1⟩,
      ⟨⟨"a", 2⟩, .identifier "end"⟩]
    let p : Program := ⟨#[⟨.ifBlock, none, some 2, ⟨"a", 0⟩⟩,
      ⟨.pushInt, some (.int 1), none, ⟨"a", 1⟩⟩, ⟨.endBlock, none, some 3, ⟨"a", 2⟩⟩]⟩
    (lower .default ts).result = .ok p ∧
      ∃ c : Code, (∀ d : Code, d.opcodes = p.opcodes ↔ d = c) ∧
        (∀ (m : Meaning Bool) s s', p.Reaches m (0, s) (p.size, s') ↔ c.Exec m 0 s s') ∧
        ∀ (m : Meaning Bool) s pc s', p.Reaches m (0, s) (pc, s') → pc ≤ p.size := by
  intro ts p
  have hlower : (lower .default ts).result = .ok p :=
    lower_of_resolve .default
      (.cons rfl (.cons rfl (.cons rfl .nil)) :
        Resolve ts [.plain .ifBlock ⟨"a", 0⟩, .pushInt 1 ⟨"a", 1⟩, .plain .endBlock ⟨"a", 2⟩])
      (rfl : _ = (Code.branch (.plain ⟨.pushInt, rfl, nofun⟩ .empty) .empty).opcodes)
  exact ⟨hlower, lower_runs_iff_exec hlower⟩

end StackLang
