import StackLang.Proofs.Lowering.Path

/-!
# What waiting tokens expand to

With a fixed table, waiting tokens stand for a list of operations: an invocation stands for what
its body stands for. `Yields` is this relation, one rule for each kind of token, and it counts the
expansions.

**Theorem (`Path.yields`).** When bodies run last and no `end` is waiting, a lowering that comes
to its end has emitted what the waiting tokens yield, in another order.

**Theorem (`Yields.lower_inPlace`).** When bodies run in place, tokens that yield plain operations
are replaced by just these operations, unless one of them invokes a macro that is not defined yet.

The first is an induction on the path, where a body that enters at the back is moved to the place
of its invocation. The second is an induction on the tree of expansions.
-/

namespace StackLang

namespace Lowering

/-- With the table `m`, the waiting tokens expand to `ops` in `n` expansions. -/
inductive Yields (m : MacroTable MacroBody) : List Pending → List Operation → Nat → Prop
  | nil : Yields m [] [] 0
  | emit {i : Pending} {rest : List Pending} {op : Operation} {ops : List Operation} {n : Nat}
      (hm : m.invoked? i.token.word = none) (hop : i.token.operation = .ok op)
      (hne : op.opcode ≠ .macroWord) (hrest : Yields m rest ops n) :
      Yields m (i :: rest) (op :: ops) n
  | expand {i : Pending} {rest : List Pending} {name : String} {body : MacroBody}
      {ops ops' : List Operation} {n n' : Nat}
      (hm : m.invoked? i.token.word = some (name, body)) (hfree : name ∉ i.trail)
      (hbody : Yields m (body.pending name i.trail) ops n) (hrest : Yields m rest ops' n') :
      Yields m (i :: rest) (ops ++ ops') (n + n' + 1)

variable {o : Options} {m : MacroTable MacroBody} {s s' : Lowering} {w w' : List Pending}
  {ops : List Operation} {n : Nat} {mvs : List Move}

theorem Yields.split (h : Yields m (w ++ w') ops n) :
    ∃ ops₁ n₁ ops₂ n₂, Yields m w ops₁ n₁ ∧ Yields m w' ops₂ n₂ ∧ ops = ops₁ ++ ops₂ ∧
      n = n₁ + n₂ := by
  induction w generalizing ops n with
  | nil => exact ⟨[], 0, ops, n, .nil, h, rfl, (Nat.zero_add n).symm⟩
  | cons i w ih =>
    cases h with
    | emit hm hop hne hrest =>
      obtain ⟨ops₁, n₁, ops₂, n₂, h₁, h₂, rfl, rfl⟩ := ih hrest
      exact ⟨_, n₁, ops₂, n₂, .emit hm hop hne h₁, h₂, rfl, rfl⟩
    | @expand _ _ _ _ ops _ n _ hm hfree hbody hrest =>
      obtain ⟨ops₁, n₁, ops₂, n₂, h₁, h₂, rfl, rfl⟩ := ih hrest
      refine ⟨_, _, ops₂, n₂, .expand hm hfree hbody h₁, h₂, ?_, ?_⟩
      · rw [List.append_assoc]
      · omega

/-- No `end` comes of tokens among which there is none. -/
theorem Yields.opcode_ne_end (h : Yields m w ops n) (hw : EndFree w) :
    ∀ op ∈ ops, op.opcode ≠ .endBlock := by
  induction h with
  | nil => exact nofun
  | @emit i rest op ops n hm hop hne hrest ih =>
    intro x hx hend
    rcases List.mem_cons.1 hx with rfl | hx
    · have hword : i.token.word = .identifier "end" :=
        Token.word_of_operation hop (by rw [hend]; rfl)
      have hfree := hw i List.mem_cons_self
      rw [Token.isEnd, hword] at hfree
      exact absurd hfree (by decide)
    · exact ih hw.tail x hx hend
  | @expand i rest name body ops ops' n n' hm hfree hbody hrest ihb ihr =>
    intro x hx
    rcases List.mem_append.1 hx with hx | hx
    · exact ihb (body.endFree_pending name i.trail) x hx
    · exact ihr hw.tail x hx

/-! ## Bodies that run last -/

/-- **A lowering that only has bodies left emits what they yield**, in the order of their turns.
The table stays as it is, because no `end` is left for a definition. -/
theorem Path.yields (ho : o.placement = .tail) (h : Path o s mvs s') (hend : s'.waiting = [])
    (hfree : EndFree s.waiting) :
    s'.macros = s.macros ∧ ∃ ops n, Yields s.macros s.waiting ops n ∧
      (emitted mvs).Perm ops ∧ s'.expansions = s.expansions + n := by
  induction h with
  | nil s => rw [hend]; exact ⟨rfl, [], 0, .nil, .nil, rfl⟩
  | cons hstep _ ih =>
    cases hstep with
    | @emit i rest op a hq hm hop hne hplace =>
      rw [hq] at hfree ⊢
      obtain ⟨hmacros, ops, n, hyields, hperm, hcount⟩ :=
        ih hend hfree.tail
      exact ⟨hmacros, op :: ops, n, .emit hm hop hne hyields, hperm.cons op, hcount⟩
    | @expand i rest name body hq hm hnot hlimit =>
      rw [hq] at hfree ⊢
      rw [ho, waiting_ofList, merge] at ih
      obtain ⟨hmacros, ops, n, hyields, hperm, hcount⟩ :=
        ih hend (hfree.tail.append (body.endFree_pending name i.trail))
      obtain ⟨ops₁, n₁, ops₂, n₂, hrest, hbody, rfl, rfl⟩ := hyields.split
      refine ⟨hmacros, _, _, .expand hm hnot hbody hrest,
        hperm.trans List.perm_append_comm, ?_⟩
      rw [hcount]
      dsimp only
      omega
    | @define i j rest rest' name body hq hm hkey hname hcut =>
      rw [hq] at hfree
      cases (MacroBody.cut?_eq_none_iff.2 hfree.tail.tail).symm.trans hcut

/-! ## Bodies that run in place -/

/-- **Tokens in front are replaced by the operations that they yield.** Or else the lowering gets
to one of them, or to a token of their bodies, that invokes a macro of the larger table only. -/
theorem Yields.lower_inPlace (ho : o.placement = .inPlace) (h : Yields m w ops n)
    (hplain : ∀ op ∈ ops, op.opcode.isControl = false) {rest : List Pending}
    (hq : s.waiting = w ++ rest) (hm : s.macros.Extends m)
    (hlimit : ∀ k < s.expansions + n, Allows o k) :
    (∃ mvs s', Path o s mvs s' ∧ s'.waiting = rest ∧ s'.macros = s.macros ∧
      s'.expansions = s.expansions + n ∧ s'.assembly.openers = s.assembly.openers ∧
      emitted mvs = ops) ∨
    ∃ mvs s' i inner e, Path o s mvs s' ∧ s'.waiting = i :: inner ++ rest ∧
      s'.macros.invoked? i.token.word = none ∧ s'.macros = s.macros ∧
      m.invoked? i.token.word = some e := by
  induction h generalizing s rest with
  | nil => exact .inl ⟨[], s, .nil s, hq, rfl, rfl, rfl, rfl⟩
  | @emit i w op ops n hnone hop hne hw ih =>
    have hnone' : s.macros.invoked? i.token.word = none := hm.invoked?_eq_none hnone
    obtain ⟨a, hplace, hopeners⟩ :=
      s.assembly.exists_place_of_plain (hplain op List.mem_cons_self)
    obtain ⟨s₁, hstep, hq₁, hm₁, hcount₁, hopeners₁⟩ : ∃ s₁, Step o s (.emit op) s₁ ∧
        s₁.waiting = w ++ rest ∧ s₁.macros = s.macros ∧ s₁.expansions = s.expansions ∧
        s₁.assembly.openers = s.assembly.openers :=
      ⟨_, .emit hq hnone' hop hne hplace, rfl, rfl, rfl, hopeners⟩
    rw [← hm₁] at hm ⊢
    rw [← hcount₁] at hlimit ⊢
    rw [← hopeners₁]
    rcases ih (fun x hx => hplain x (List.mem_cons_of_mem op hx)) hq₁ hm hlimit with
      ⟨mvs, s', hpath, hend, hmacros, hcount, hopeners', rfl⟩ | ⟨mvs, s', j, inner, e, hpath, h⟩
    · exact .inl ⟨_, s', .cons hstep hpath, hend, hmacros, hcount, hopeners', rfl⟩
    · exact .inr ⟨_, s', j, inner, e, .cons hstep hpath, h⟩
  | @expand i w name body ops ops' n n' hsome hfree hbody hw ihb ihw =>
    cases hnow : s.macros.invoked? i.token.word with
    | none => exact .inr ⟨[], s, i, w, _, .nil s, hq, hnow, rfl, hsome⟩
    | some e =>
      obtain rfl : e = (name, body) := Option.some.inj ((hm _ e hnow).symm.trans hsome)
      obtain ⟨s₀, hstep, hq₀, hm₀, hcount₀, hopeners₀⟩ : ∃ s₀, Step o s (.expand i name body) s₀ ∧
          s₀.waiting = body.pending name i.trail ++ (w ++ rest) ∧ s₀.macros = s.macros ∧
          s₀.expansions = s.expansions + 1 ∧ s₀.assembly.openers = s.assembly.openers := by
        refine ⟨_, .expand hq hnow hfree (hlimit s.expansions (by omega)), ?_, rfl, rfl, rfl⟩
        rw [ho]
        rfl
      rw [← hm₀] at hm ⊢
      rw [← hopeners₀]
      -- first the body, with the rest of the tokens behind it, and then the rest
      rcases ihb (fun x hx => hplain x (List.mem_append_left ops' hx)) hq₀ hm
        (fun k hk => hlimit k (by omega)) with
        ⟨mvs, s₁, hpath, hend, hmacros, hcount, hopeners, rfl⟩ | ⟨mvs, s₁, j, inner, e, hpath, h⟩
      · rcases ihw (fun x hx => hplain x (List.mem_append_right _ hx)) hend
          (by rw [hmacros]; exact hm) (fun k hk => hlimit k (by omega)) with
          ⟨mvs', s₂, hpath', hend', hmacros', hcount', hopeners', rfl⟩ |
            ⟨mvs', s₂, j, inner, e, hpath', hj, hnone, hmacros', he⟩
        · refine .inl ⟨_, s₂, .cons hstep (hpath.append hpath'), hend', hmacros'.trans hmacros,
            by omega, hopeners'.trans hopeners, ?_⟩
          exact List.filterMap_append
        · exact .inr ⟨_, s₂, j, inner, e, .cons hstep (hpath.append hpath'), hj, hnone,
            hmacros'.trans hmacros, he⟩
      · obtain ⟨hj, hnone, hmacros, he⟩ := h
        refine .inr ⟨_, s₁, j, inner ++ w, e, .cons hstep hpath, ?_, hnone, hmacros, he⟩
        rw [hj, List.cons_append, List.cons_append, List.append_assoc]

end Lowering

end StackLang
