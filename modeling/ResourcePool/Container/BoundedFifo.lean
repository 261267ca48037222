import Mathlib.Data.List.Perm.Basic
import Mathlib.Order.Lattice

/-!
# Bounded queues with deadlines

What a queue of requests with deadlines is for, in terms of the list of the pending
ones, oldest first: a bounded push, a pop of the oldest, and a cancellation of all those
whose deadline a bound reaches. Nothing here says how the list is kept.
-/

namespace Container

universe u v w

/-- A pending item with the context it came from and its deadline. -/
structure Pending (Item : Type u) (Context : Type v) (Time : Type w) where
  item : Item
  context : Context
  deadline : Time
  deriving DecidableEq

namespace BoundedFifo

variable {Item : Type u} {Context : Type v} {Time : Type w} [LinearOrder Time]

/-- The list after a push, which is refused if there is no room. -/
def push (capacity : ℕ) (pending : List (Pending Item Context Time))
    (last : Pending Item Context Time) : Option (List (Pending Item Context Time)) :=
  if pending.length < capacity then some (pending ++ [last]) else none

/-- The oldest item and the list without it. -/
def pop : List (Pending Item Context Time) →
    Option (Pending Item Context Time × List (Pending Item Context Time))
  | [] => none
  | oldest :: rest => some (oldest, rest)

/-- The items whose deadline the bound reaches. -/
def expired (pending : List (Pending Item Context Time)) (bound : Time) :
    List (Pending Item Context Time) :=
  pending.filter fun entry => entry.deadline ≤ bound

/-- The list after a cancellation: the other items, in order. -/
def cancel (pending : List (Pending Item Context Time)) (bound : Time) :
    List (Pending Item Context Time) :=
  pending.filter fun entry => bound < entry.deadline

/-- A cancellation loses no item and doubles none. -/
theorem expired_append_cancel_perm (pending : List (Pending Item Context Time))
    (bound : Time) : (expired pending bound ++ cancel pending bound).Perm pending := by
  have rest : cancel pending bound =
      pending.filter fun entry => !decide (entry.deadline ≤ bound) := by
    simp only [cancel, ← not_le, decide_not]
  rw [rest]
  exact List.filter_append_perm _ pending

end BoundedFifo

end Container
