/-!
# Queues

A queue is taken from at the front and added to at either end. Its elements are held in two parts,
the second of them in reverse, so that an addition at the back copies nothing that waits already.

Where the parts meet does not count. Queues with the same elements in the same order are equal
(`Queue.ext`), and each operation is described by the list of the elements (`toList`).
-/

namespace StackLang

/-- The elements of a queue in two parts. The last element is the head of `back`, unless `back` is
empty. -/
structure Halves (α : Type) where
  front : List α
  back : List α

namespace Halves

variable {α : Type}

/-- The elements from the first to the last. -/
def toList (h : Halves α) : List α :=
  match h.back with
  | [] => h.front
  | back => h.front ++ back.reverse

theorem toList_eq (h : Halves α) : h.toList = h.front ++ h.back.reverse := by
  unfold toList
  split
  · next hback => simp [hback]
  · rfl

/-- The first element and the others. When `front` is used up, `back` is turned round. -/
def pop? (h : Halves α) : Option (α × Halves α) :=
  match h.front with
  | a :: front => some (a, ⟨front, h.back⟩)
  | [] =>
    match h.back.reverse with
    | a :: front => some (a, ⟨front, []⟩)
    | [] => none

/-- To a queue, two ways to divide a list into parts are the same. -/
instance setoid (α : Type) : Setoid (Halves α) where
  r h h' := h.toList = h'.toList
  iseqv := ⟨fun _ => rfl, Eq.symm, Eq.trans⟩

end Halves

/-- A list that is cheap to take from at the front and to add to at either end. -/
def Queue (α : Type) : Type :=
  Quotient (Halves.setoid α)

namespace Queue

variable {α : Type}

/-- The queue with these parts. -/
def ofHalves (h : Halves α) : Queue α :=
  Quotient.mk _ h

/-- The queue of the elements of a list. -/
def ofList (xs : List α) : Queue α :=
  ofHalves ⟨xs, []⟩

/-- The elements from the first to the last. -/
def toList (q : Queue α) : List α :=
  Quotient.lift Halves.toList (fun _ _ => id) q

@[simp] theorem toList_ofHalves (h : Halves α) : (ofHalves h).toList = h.toList := rfl

@[simp] theorem toList_ofList (xs : List α) : (ofList xs).toList = xs := rfl

/-- A queue is no more than the list of its elements. -/
@[ext] theorem ext {q q' : Queue α} (h : q.toList = q'.toList) : q = q' := by
  induction q using Quotient.ind
  induction q' using Quotient.ind
  exact Quotient.sound h

@[simp] theorem ofList_toList (q : Queue α) : ofList q.toList = q :=
  ext rfl

/-! ## Adding -/

theorem toList_halves_append (h : Halves α) (xs : List α) :
    (ofHalves ⟨h.front, xs.reverse ++ h.back⟩).toList = h.toList ++ xs := by
  simp [Halves.toList_eq]

theorem toList_halves_prepend (h : Halves α) (xs : List α) :
    (ofHalves ⟨xs ++ h.front, h.back⟩).toList = xs ++ h.toList := by
  simp [Halves.toList_eq]

/-- Add the elements of a list at the back. -/
def append (q : Queue α) (xs : List α) : Queue α :=
  Quotient.lift (fun h : Halves α => ofHalves ⟨h.front, xs.reverse ++ h.back⟩)
    (fun h h' hh => ext <| (toList_halves_append h xs).trans <|
      (congrArg (· ++ xs) hh).trans (toList_halves_append h' xs).symm) q

/-- Add the elements of a list at the front. -/
def prepend (q : Queue α) (xs : List α) : Queue α :=
  Quotient.lift (fun h : Halves α => ofHalves ⟨xs ++ h.front, h.back⟩)
    (fun h h' hh => ext <| (toList_halves_prepend h xs).trans <|
      (congrArg (xs ++ ·) hh).trans (toList_halves_prepend h' xs).symm) q

@[simp] theorem toList_append (q : Queue α) (xs : List α) :
    (q.append xs).toList = q.toList ++ xs := by
  induction q using Quotient.ind with
  | _ h => exact toList_halves_append h xs

@[simp] theorem toList_prepend (q : Queue α) (xs : List α) :
    (q.prepend xs).toList = xs ++ q.toList := by
  induction q using Quotient.ind with
  | _ h => exact toList_halves_prepend h xs

/-! ## Taking -/

/-- The head of a list and the queue of the other elements. -/
def uncons? : List α → Option (α × Queue α)
  | [] => none
  | a :: xs => some (a, ofList xs)

theorem pop?_halves (h : Halves α) :
    (h.pop?.map fun p => (p.1, ofHalves p.2)) = uncons? h.toList := by
  rw [Halves.toList_eq]
  unfold Halves.pop?
  split
  · next a front hfront =>
    rw [hfront]
    refine congrArg (fun q => some (a, q)) (ext ?_)
    simp [Halves.toList_eq]
  · next hfront =>
    rw [hfront, List.nil_append]
    cases h.back.reverse <;> rfl

/-- The first element, and the queue of the others. -/
def pop? (q : Queue α) : Option (α × Queue α) :=
  Quotient.lift (fun h : Halves α => h.pop?.map fun p => (p.1, ofHalves p.2))
    (fun h h' hh => (pop?_halves h).trans <| (congrArg uncons? hh).trans (pop?_halves h').symm) q

/-- The first element is the head of the list. -/
theorem pop?_eq (q : Queue α) : q.pop? = uncons? q.toList := by
  induction q using Quotient.ind with
  | _ h => exact pop?_halves h

theorem pop?_eq_none_iff {q : Queue α} : q.pop? = none ↔ q.toList = [] := by
  rw [pop?_eq]
  cases q.toList <;> simp [uncons?]

theorem pop?_eq_some_iff {q rest : Queue α} {a : α} :
    q.pop? = some (a, rest) ↔ q.toList = a :: rest.toList := by
  rw [pop?_eq]
  cases q.toList with
  | nil => simp [uncons?]
  | cons b xs =>
    constructor
    · intro h
      cases h
      rfl
    · intro h
      cases h
      exact congrArg (fun q => some (a, q)) (ofList_toList rest)

end Queue

end StackLang
