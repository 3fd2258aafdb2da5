import StackLang.Lowering.Step

/-!
# Why lowering ends

A definition uses up an `end`, and nothing that enters the queue is one, so there are only
finitely many definitions. Between two of them the table is fixed. Then a token can lead only to
macros it did not come from, its *freedom*; what replaces an invocation has one macro less left to
enter. With bodies shorter than `w` and freedom `f`, a token leads to fewer than `w ^ f` others,
and the sum of these bounds over the queue falls with every step.

**`advance_lt`.** Every step lowers the number of waiting `end`s, or keeps it and lowers that sum.
-/

namespace StackLang.Lowering

/-- The number of `end`s among the waiting tokens. -/
def ends (waiting : List Pending) : Nat :=
  waiting.countP (·.token.isEnd)

/-- The number of macros that a token may still lead to: those it did not come from. -/
def freedom (macros : MacroTable MacroBody) (i : Pending) : Nat :=
  macros.entries.countP (·.1 ∉ i.trail)

/-- A number that the length of every body in a table is below. -/
def width (macros : MacroTable MacroBody) : Nat :=
  macros.entries.foldr (fun e n => e.2.tokens.length + n) 1

/-- A bound on the tokens that one token can lead to before the table changes. -/
def reach (macros : MacroTable MacroBody) (i : Pending) : Nat :=
  Nat.pow (width macros) (freedom macros i)

/-- A bound on the tokens that the waiting ones can lead to before the table changes. -/
def weight (macros : MacroTable MacroBody) (waiting : List Pending) : Nat :=
  waiting.foldr (fun i n => reach macros i + n) 0

/-- The number of waiting `end`s and the weight of the queue, in this order. -/
def measure (s : Lowering) : Nat × Nat :=
  (ends s.queue.toList, weight s.macros s.queue.toList)

/-! ## Waiting ends -/

theorem ends_append (xs ys : List Pending) : ends (xs ++ ys) = ends xs + ends ys :=
  List.countP_append

theorem ends_cons (i : Pending) (waiting : List Pending) :
    ends (i :: waiting) = ends waiting + if i.token.isEnd then 1 else 0 :=
  List.countP_cons

/-- Bodies bring no `end` into the queue. -/
theorem ends_pending (b : MacroBody) (name : String) (trail : List String) :
    ends (b.pending name trail) = 0 := by
  refine List.countP_eq_zero.2 fun i hi => ?_
  obtain ⟨t, ht, rfl⟩ := List.mem_map.1 hi
  simp [b.endFree t ht]

/-- Cutting off a body uses up an `end`. -/
theorem ends_of_cut? {waiting rest : List Pending} {b : MacroBody}
    (h : MacroBody.cut? waiting = some (b, rest)) : ends rest < ends waiting := by
  unfold MacroBody.cut? at h
  split at h
  · cases h
  · next i tail hdrop =>
    cases h
    have hend : i.token.isEnd = true := by
      have hstop := List.head?_dropWhile_not (!·.token.isEnd) waiting
      simpa [hdrop] using hstop
    rw [← List.takeWhile_append_dropWhile (p := (!·.token.isEnd)) (l := waiting), hdrop,
      ends_append, ends_cons, if_pos hend]
    omega

/-! ## Freedom and weight -/

theorem weight_cons (m : MacroTable MacroBody) (i : Pending) (waiting : List Pending) :
    weight m (i :: waiting) = reach m i + weight m waiting := rfl

theorem weight_append (m : MacroTable MacroBody) (xs ys : List Pending) :
    weight m (xs ++ ys) = weight m xs + weight m ys := by
  induction xs with
  | nil => exact (Nat.zero_add _).symm
  | cons i xs ih => rw [List.cons_append, weight_cons, weight_cons, ih, Nat.add_assoc]

theorem foldr_length_pos (entries : List (String × MacroBody)) :
    0 < entries.foldr (fun e n => e.2.tokens.length + n) 1 := by
  induction entries with
  | nil => exact Nat.one_pos
  | cons e entries ih => exact Nat.lt_of_lt_of_le ih (Nat.le_add_left ..)

theorem width_pos (m : MacroTable MacroBody) : 0 < width m :=
  foldr_length_pos m.entries

/-- Every body of a table is shorter than the width of the table. -/
theorem length_lt_width {m : MacroTable MacroBody} {e : String × MacroBody}
    (he : e ∈ m.entries) : e.2.tokens.length < width m := by
  unfold width
  generalize m.entries = entries at he
  induction entries with
  | nil => cases he
  | cons x xs ih =>
    rw [List.foldr_cons]
    rcases List.mem_cons.1 he with rfl | he
    · exact Nat.lt_add_of_pos_right (foldr_length_pos xs)
    · exact Nat.lt_of_lt_of_le (ih he) (Nat.le_add_left ..)

theorem reach_pos (m : MacroTable MacroBody) (i : Pending) : 0 < reach m i :=
  Nat.pow_pos (width_pos m)

/-- A predicate that implies another, and fails somewhere where the other holds, holds less
often. -/
theorem countP_lt_countP {α : Type} {p q : α → Bool} {l : List α}
    (hpq : ∀ x ∈ l, p x = true → q x = true) {a : α} (ha : a ∈ l) (hp : p a = false)
    (hq : q a = true) : l.countP p < l.countP q := by
  induction l with
  | nil => cases ha
  | cons x xs ih =>
    have hle : xs.countP p ≤ xs.countP q :=
      List.countP_mono_left fun y hy => hpq y (List.mem_cons_of_mem x hy)
    rcases List.mem_cons.1 ha with rfl | ha
    · rw [List.countP_cons_of_neg (by simp [hp]), List.countP_cons_of_pos hq]
      exact Nat.lt_succ_of_le hle
    · have hlt := ih (fun y hy => hpq y (List.mem_cons_of_mem x hy)) ha
      have hx := hpq x List.mem_cons_self
      rw [List.countP_cons, List.countP_cons]
      cases hpx : p x
      · simp
        omega
      · simp [hx hpx]
        omega

/-- Entering one more macro leaves less freedom. -/
theorem freedom_cons_lt {m : MacroTable MacroBody} {e : String × MacroBody} (he : e ∈ m.entries)
    {i : Pending} (hfree : e.1 ∉ i.trail) (t : Token) :
    freedom m ⟨t, e.1 :: i.trail⟩ < freedom m i :=
  countP_lt_countP (fun x _ hx => by simp_all) he (by simp) (by simpa using hfree)

/-- All tokens of an expanded body weigh the same. -/
theorem weight_map (m : MacroTable MacroBody) (trail : List String) (t : Token)
    (ts : List Token) : weight m (ts.map (⟨·, trail⟩)) = ts.length * reach m ⟨t, trail⟩ := by
  induction ts with
  | nil => exact (Nat.zero_mul _).symm
  | cons u us ih =>
    rw [List.map_cons, weight_cons, ih, List.length_cons, Nat.succ_mul, Nat.add_comm]
    rfl

/-- The body of a macro weighs less than its invocation. -/
theorem weight_pending_lt {m : MacroTable MacroBody} {e : String × MacroBody}
    (he : e ∈ m.entries) {i : Pending} (hfree : e.1 ∉ i.trail) :
    weight m (e.2.pending e.1 i.trail) < reach m i := by
  have hpos : 0 < reach m ⟨i.token, e.1 :: i.trail⟩ := reach_pos m _
  calc weight m (e.2.pending e.1 i.trail)
      = e.2.tokens.length * reach m ⟨i.token, e.1 :: i.trail⟩ := weight_map ..
    _ < width m * reach m ⟨i.token, e.1 :: i.trail⟩ :=
        Nat.mul_lt_mul_of_pos_right (length_lt_width he) hpos
    _ = Nat.pow (width m) (freedom m ⟨i.token, e.1 :: i.trail⟩ + 1) := Nat.mul_comm ..
    _ ≤ reach m i :=
        Nat.pow_le_pow_right (width_pos m) (freedom_cons_lt he hfree i.token)

theorem ends_enqueue (placement : Placement) (queue : Queue Pending) (body : List Pending) :
    ends (enqueue placement queue body).toList = ends queue.toList + ends body := by
  cases placement
  · rw [enqueue, Queue.toList_append, ends_append]
  · rw [enqueue, Queue.toList_prepend, ends_append, Nat.add_comm]

theorem weight_enqueue (m : MacroTable MacroBody) (placement : Placement)
    (queue : Queue Pending) (body : List Pending) :
    weight m (enqueue placement queue body).toList = weight m queue.toList + weight m body := by
  cases placement
  · rw [enqueue, Queue.toList_append, weight_append]
  · rw [enqueue, Queue.toList_prepend, weight_append, Nat.add_comm]

/-! ## The measure of each kind of step -/

section

variable {s s' : Lowering} {o : Options} {i : Pending} {event : Option Event}

theorem expand_lt {name : String} {body : MacroBody} (he : (name, body) ∈ s.macros.entries)
    (h : s.expand o i name body = .ok (s', event)) :
    ends s'.queue.toList = ends s.queue.toList ∧
      weight s'.macros s'.queue.toList <
        reach s.macros i + weight s.macros s.queue.toList := by
  unfold expand at h
  split at h
  · cases h
  · next hfree =>
    have hlt := weight_pending_lt he hfree
    dsimp only at hlt
    unfold substitute at h
    split at h
    · cases h
    · cases h
      have hzero := ends_pending body name i.trail
      simp only [ends_enqueue, weight_enqueue]
      omega

theorem define_lt {location : Location} (h : s.define location = .ok (s', event)) :
    ends s'.queue.toList < ends s.queue.toList := by
  unfold define at h
  split at h
  · cases h
  · next hq =>
    split at h
    · cases h
    · split at h
      · cases h
      · next hcut =>
        cases h
        rw [Queue.pop?_eq_some_iff.1 hq, ends_cons, Queue.toList_ofList]
        exact Nat.lt_of_lt_of_le (ends_of_cut? hcut) (Nat.le_add_right ..)

theorem emit_queue {op : Operation} (h : s.emit op = .ok (s', event)) :
    s'.queue = s.queue ∧ s'.macros = s.macros := by
  unfold emit at h
  dsimp only at h
  split at h <;> cases h
  exact ⟨rfl, rfl⟩

end

/-- Every step gets closer to the end. -/
theorem advance_lt {s s' : Lowering} {o : Options} {i : Pending}
    {queue : Queue Pending} {event : Option Event} (hq : s.queue.toList = i :: queue.toList)
    (h : advance { s with queue } o i = .ok (s', event)) :
    Prod.Lex (· < ·) (· < ·) s'.measure s.measure := by
  have hends := ends_cons i queue.toList
  have hweight := weight_cons s.macros i queue.toList
  rw [← hq] at hends hweight
  have hpos : 0 < reach s.macros i := reach_pos s.macros i
  refine Prod.lex_def.2 ?_
  unfold advance at h
  split at h
  · next hinvoked =>
    have hlt := expand_lt (MacroTable.mem_of_invoked? hinvoked) h
    simp only [measure] at hlt ⊢
    omega
  · split at h
    · cases h
    · split at h
      · have hlt := define_lt h
        simp only [measure] at hlt ⊢
        omega
      · obtain ⟨hqueue, hmacros⟩ := emit_queue h
        simp only [measure, hqueue, hmacros]
        omega

end StackLang.Lowering
