import StackLang.Proofs.Buffer
import StackLang.Proofs.Macro

/-!
# Access to the storage

What the numbers of a buffer lead to. A trail that is found stays as it is when expansions are
added (`trail?_append`), and the pending tokens are those from the position on, each with its
origin (`Buffer.pending`). They are a list as plain as the queue of a lowering: a turn takes its
first element, and bodies are put in front of the others or behind them, because tokens and
origins are inserted at the same index (`drop_zip_insertAt`).
-/

namespace StackLang.Buffer

/-! ## Trails -/

section

variable {frames : List Expansion} {origin : Option Nat} {trail : List String}

theorem trail?_none (frames : List Expansion) : trail? frames none = some [] := by
  rw [trail?]

/-- The trail of an expansion is its macro, and the trail of an earlier expansion or of the source.
-/
theorem trail?_eq_some_iff {k : Nat} : trail? frames (some k) = some trail ↔
    ∃ name parent outer, frames[k]? = some ⟨name, parent⟩ ∧ (∀ j, parent = some j → j < k) ∧
      trail? frames parent = some outer ∧ trail = name :: outer := by
  rw [trail?]
  cases hk : frames[k]? with
  | none => simp
  | some frame =>
    obtain ⟨name, parent⟩ := frame
    have hback : parent.all (· < k) = true ↔ ∀ j, parent = some j → j < k := by
      cases parent <;> simp
    simp only [hback, Option.some.injEq, Expansion.mk.injEq]
    constructor
    · intro h
      split at h
      · next hlt =>
        obtain ⟨outer, houter, rfl⟩ := Option.map_eq_some_iff.1 h
        exact ⟨name, parent, outer, ⟨rfl, rfl⟩, hlt, houter, rfl⟩
      · cases h
    · rintro ⟨_, _, outer, ⟨rfl, rfl⟩, hlt, houter, rfl⟩
      rw [if_pos hlt, houter, Option.map_some]

/-- Only the tokens of the source have no trail. -/
theorem origin_eq_none (h : trail? frames origin = some []) : origin = none := by
  cases origin with
  | none => rfl
  | some k =>
    obtain ⟨name, parent, outer, -, -, -, hcons⟩ := trail?_eq_some_iff.1 h
    cases hcons

/-- **Expansions that are added change no trail.** -/
theorem trail?_append (h : trail? frames origin = some trail) (more : List Expansion) :
    trail? (frames ++ more) origin = some trail := by
  fun_induction trail? frames origin generalizing trail with
  | case1 => rw [trail?_none]; exact h
  | case2 => cases h
  | case3 k name parent hk hlt ih =>
    obtain ⟨outer, houter, rfl⟩ := Option.map_eq_some_iff.1 h
    have hk' : (frames ++ more)[k]? = some ⟨name, parent⟩ := by
      rw [List.getElem?_append_left (List.getElem?_eq_some_iff.1 hk).1, hk]
    refine trail?_eq_some_iff.2 ⟨name, parent, outer, hk', ?_, ih houter, rfl⟩
    rintro j rfl
    simpa using hlt
  | case4 => cases h

/-- The trail of an expansion that is added. -/
theorem trail?_concat (h : trail? frames origin = some trail)
    (hlt : ∀ k, origin = some k → k < frames.length) (name : String) :
    trail? (frames ++ [⟨name, origin⟩]) (some frames.length) = some (name :: trail) :=
  trail?_eq_some_iff.2
    ⟨name, origin, trail, List.getElem?_concat_length, hlt, trail?_append h _, rfl⟩

end

/-! ## Pending tokens -/

/-- The tokens that have not had their turn, with their origins. -/
def pending (b : Buffer) : List (Token × Option Nat) :=
  (b.tokens.zip b.origins).drop b.position

section

variable {α β : Type} {xs : List α} {ys : List β} {i : Nat}

theorem of_drop_zip_eq_cons {x : α} {y : β} {rest : List (α × β)}
    (h : (xs.zip ys).drop i = (x, y) :: rest) :
    xs[i]? = some x ∧ ys[i]? = some y ∧ (xs.zip ys).drop (i + 1) = rest := by
  have hhead : (xs.zip ys)[i]? = some (x, y) := by
    rw [← List.head?_drop, h, List.head?_cons]
  have htail : (xs.zip ys).drop (i + 1) = rest := by
    rw [← List.tail_drop, h, List.tail_cons]
  obtain ⟨hx, hy⟩ := List.getElem?_zip_eq_some.1 hhead
  exact ⟨hx, hy, htail⟩

theorem slice?_eq {j : Nat} (hi : i ≤ j) (hj : j ≤ xs.length) :
    slice? xs i j = some ((xs.drop i).take (j - i)) := by
  rw [slice?, if_pos ⟨hi, hj⟩, List.drop_take]

/-- A list with a body put in at the index `i`, or behind it. -/
def insertAt (placement : Placement) (xs : List α) (i : Nat) (body : List α) : List α :=
  match placement with
  | .tail => xs ++ body
  | .inPlace => xs.take i ++ (body ++ xs.drop i)

theorem length_insertAt (placement : Placement) (xs : List α) (i : Nat) (body : List α) :
    (insertAt placement xs i body).length = xs.length + body.length := by
  cases placement
  · exact List.length_append
  · simp only [insertAt, List.length_append, List.length_take, List.length_drop]
    omega

theorem mem_insertAt {placement : Placement} {body : List α} {x : α}
    (h : x ∈ insertAt placement xs i body) : x ∈ xs ∨ x ∈ body := by
  cases placement
  · exact List.mem_append.1 h
  · simp only [insertAt, List.mem_append] at h
    rcases h with h | h | h
    · exact .inl (List.mem_of_mem_take h)
    · exact .inr h
    · exact .inl (List.mem_of_mem_drop h)

/-- What follows the index in two lists, after bodies have been put into both of them. -/
theorem drop_zip_insertAt (placement : Placement) {us : List α} {vs : List β}
    (hlength : xs.length = ys.length) (hbody : us.length = vs.length) (hi : i ≤ xs.length) :
    ((insertAt placement xs i us).zip (insertAt placement ys i vs)).drop i =
      match placement with
      | .tail => (xs.zip ys).drop i ++ us.zip vs
      | .inPlace => us.zip vs ++ (xs.zip ys).drop i := by
  cases placement with
  | tail =>
    have hle : i ≤ (xs.zip ys).length := by rwa [List.length_zip, ← hlength, Nat.min_self]
    simp only [insertAt]
    rw [List.zip_append hlength, List.drop_append_of_le_length hle]
  | inPlace =>
    have htake : (xs.take i).length = (ys.take i).length := by
      rw [List.length_take, List.length_take, hlength]
    have hleft : ((xs.take i).zip (ys.take i)).length = i := by
      rw [List.length_zip, ← htake, Nat.min_self, List.length_take, Nat.min_eq_left hi]
    simp only [insertAt]
    rw [List.zip_append htake, List.zip_append hbody, List.drop_left' hleft]
    simp only [List.zip_eq_zipWith, List.drop_zipWith]

end

section

variable {b : Buffer} {t : Token} {origin : Option Nat} {stored : List (Token × Option Nat)}

/-- The token at the position is the first that is pending. -/
theorem of_pending_eq_cons (h : b.pending = (t, origin) :: stored) :
    b.tokens[b.position]? = some t ∧ b.origins[b.position]? = some origin ∧
      (b.tokens.zip b.origins).drop (b.position + 1) = stored :=
  of_drop_zip_eq_cons h

theorem position_lt (h : b.pending = (t, origin) :: stored) : b.position < b.tokens.length :=
  (List.getElem?_eq_some_iff.1 (of_pending_eq_cons h).1).1

/-- The pending tokens without their origins. -/
theorem map_pending (hlength : b.origins.length = b.tokens.length) (n : Nat) :
    (b.pending.drop n).map (·.1) = b.tokens.drop (b.position + n) := by
  rw [pending, List.drop_drop, List.map_drop, List.map_fst_zip (Nat.le_of_eq hlength.symm)]

theorem pending_eq_nil (hlength : b.origins.length = b.tokens.length) (h : b.pending = []) :
    b.tokens.length ≤ b.position := by
  have hnil := map_pending hlength 0
  rw [h] at hnil
  exact List.drop_eq_nil_iff.1 hnil.symm

/-- A body can be put in at every token. -/
theorem insertBody_eq (hlength : b.origins.length = b.tokens.length)
    (hlt : b.position < b.tokens.length) (placement : Placement) (name : String)
    (parent : Option Nat) (body : List Token) :
    b.insertBody placement name parent body = .ok { b with
      tokens := insertAt placement b.tokens (b.position + 1) body
      origins := insertAt placement b.origins (b.position + 1)
        (body.map fun _ => some b.frames.length)
      frames := b.frames ++ [⟨name, parent⟩]
      position := b.position + 1
      expansions := b.expansions + 1 } := by
  cases placement with
  | tail => rfl
  | inPlace =>
    have hlt' : b.position < b.origins.length := hlength ▸ hlt
    simp only [insertBody, splice?, if_pos (Nat.succ_le_of_lt hlt),
      if_pos (Nat.succ_le_of_lt hlt'), insertAt]

end

/-- A body with the number of its expansion for every token. -/
theorem zip_origins (body : List Token) (k : Nat) :
    body.zip (body.map fun _ => some k) = body.map (·, some k) := by
  induction body with
  | nil => rfl
  | cons t body ih => exact congrArg ((t, some k) :: ·) ih

/-! ## The body of a definition -/

/-- The first `end` of a list is where it has been cut. -/
theorem findIdx?_isEnd {waiting rest : List Pending} {body : MacroBody}
    (h : MacroBody.cut? waiting = some (body, rest)) :
    (waiting.map (·.token)).findIdx? (·.isEnd) = some body.tokens.length ∧
      (waiting.map (·.token)).take body.tokens.length = body.tokens ∧
      body.tokens.length < waiting.length ∧ waiting.drop (body.tokens.length + 1) = rest := by
  obtain ⟨inner, close, rfl, hclose, hbody⟩ := MacroBody.eq_of_cut? h
  have hlength : body.tokens.length = inner.length := by rw [hbody, List.length_map]
  rw [List.map_append, List.map_cons, ← hbody]
  refine ⟨?_, List.take_left, ?_, ?_⟩
  · have hnone : body.tokens.findIdx? (·.isEnd) = none :=
      List.findIdx?_eq_none_iff.2 body.endFree
    rw [List.findIdx?_append, hnone, List.findIdx?_cons, if_pos hclose]
    simp
  · simp [hlength]
  · rw [hlength, ← List.drop_drop, List.drop_left]
    rfl

theorem findIdx?_isEnd_eq_none {waiting : List Pending} (h : MacroBody.cut? waiting = none) :
    (waiting.map (·.token)).findIdx? (·.isEnd) = none := by
  rw [List.findIdx?_eq_none_iff]
  exact List.forall_mem_map.2 (MacroBody.cut?_eq_none_iff.1 h)

end StackLang.Buffer
