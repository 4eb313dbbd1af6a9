import Sails.Library.Run
import Mathlib.Data.List.Basic
import Mathlib.Algebra.Group.Nat.Defs

/-!
# `base::ThreadQueue`

The bounded queue between threads. `push_back` compares `_size` with `_maxSize` before it
takes the mutex and inserts under the mutex without looking again, so the two halves are two
functions here and several threads may pass the test before one of them inserts.

- `isFull`: the unlocked test
- `pushLocked`: the insertion
- `popFront`: `pop_front` without waiting
-/

namespace Sails.Base

open TransitionRun (Fault)

/-- `base::ThreadQueue`: the counter changes under the mutex, together with the queue. -/
structure ThreadQueue (α : Type*) where
  queue : List α
  size : Nat
  maxSize : Nat
  size_eq : size = queue.length

namespace ThreadQueue

variable {α : Type*}

/-- The capacity the constructor sets. -/
def defaultMaxSize : Nat := 100000

/-- An empty queue; `setMaxSize` may have changed the capacity. -/
def init (maxSize : Nat) : ThreadQueue α where
  queue := []
  size := 0
  maxSize := maxSize
  size_eq := rfl

/-- The test `push_back` makes before it locks: `_size >= _maxSize`. -/
def isFull (q : ThreadQueue α) : Bool := decide (q.maxSize ≤ q.size)

/-- The locked part of `push_back`. -/
def pushLocked (q : ThreadQueue α) (t : α) : ThreadQueue α where
  queue := q.queue ++ [t]
  size := q.size + 1
  maxSize := q.maxSize
  size_eq := by rw [List.length_append, List.length_singleton, q.size_eq]

/-- `pop_front(t, 0)`, with its assertion. -/
def popFront (q : ThreadQueue α) : Except Fault (Option (α × ThreadQueue α)) :=
  match h : q.queue with
  | [] => .ok none
  | t :: rest =>
    if 0 < q.size then
      .ok (some (t, ⟨rest, q.size - 1, q.maxSize, by
        rw [q.size_eq, h, List.length_cons, Nat.add_sub_cancel]⟩))
    else .error .assertion

/-- What `pop_front` returns; its assertion holds. -/
theorem popFront_spec (q : ThreadQueue α) :
    (q.queue = [] ∧ q.popFront = .ok none) ∨
    ∃ t q', q.popFront = .ok (some (t, q')) ∧ q.queue = t :: q'.queue ∧ q'.maxSize = q.maxSize := by
  unfold popFront
  split
  · rename_i hempty
    exact .inl ⟨hempty, rfl⟩
  · rename_i t rest hcons
    have hpos : 0 < q.size := by
      rw [q.size_eq, hcons]
      exact Nat.succ_pos _
    rw [if_pos hpos]
    exact .inr ⟨t, _, rfl, hcons, rfl⟩

end ThreadQueue

end Sails.Base
