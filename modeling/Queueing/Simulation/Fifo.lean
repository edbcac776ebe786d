/-!
# First in, first out

A queue with cheap access to both ends: a front list, and a back list in reverse order.
Its contents are `toList`, and every operation is described through this view.
-/

namespace Queueing

/-- A queue, with the latest element at the head of `back`. -/
structure Fifo (α : Type) where
  front : List α
  back : List α
  /-- The number of elements. -/
  size : Nat
  size_eq : size = front.length + back.length
deriving DecidableEq, Repr

namespace Fifo

variable {α : Type}

def toList (q : Fifo α) : List α := q.front ++ q.back.reverse

def empty : Fifo α := ⟨[], [], 0, rfl⟩

def push (a : α) (q : Fifo α) : Fifo α :=
  ⟨q.front, a :: q.back, q.size + 1, by simp [q.size_eq]; omega⟩

def pop? (q : Fifo α) : Option (α × Fifo α) :=
  match h : q.front with
  | a :: front => some (a, ⟨front, q.back, q.size - 1, by simp [q.size_eq, h]⟩)
  | [] =>
    match hb : q.back.reverse with
    | [] => none
    | a :: front =>
      some (a, ⟨front, [], q.size - 1, by
        have := congrArg List.length hb
        simp [q.size_eq, h] at this ⊢; omega⟩)

def isEmpty (q : Fifo α) : Bool := q.size == 0

/-! ## The view -/

@[simp] theorem toList_empty : (empty : Fifo α).toList = [] := rfl

@[simp] theorem toList_push (a : α) (q : Fifo α) : (q.push a).toList = q.toList ++ [a] := by
  simp [toList, push]

@[simp] theorem length_toList (q : Fifo α) : q.toList.length = q.size := by
  simp [toList, q.size_eq]

/-- Taking the oldest element takes the head of the view. -/
theorem map_pop? (q : Fifo α) :
    q.pop?.map (fun p => (p.1, p.2.toList)) = match q.toList with
      | [] => none
      | a :: rest => some (a, rest) := by
  unfold pop? toList
  split
  · next a front h => simp [h]
  · next h =>
    split
    · next hb => simp [h, hb]
    · next a front hb => simp [h, hb]

end Fifo

end Queueing
