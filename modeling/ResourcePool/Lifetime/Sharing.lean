import ResourcePool.Transition.System

/-!
# Objects which are shared by counted pointers

A shared object lives as long as there is a pointer to it. What a step of a program does with
the object is a list of uses: it copies a pointer to it, gives one up, or reaches the object
through one. `useEach` runs such a list over the number of the pointers, and is undefined from
the first use of an object which has been destroyed.

`Sharing` says which pointers the states of a system hold, and how its steps use them. If the
uses of every step account for the pointers before and after it, then the count is at all times
the number of the pointers held, and the object is never used after its destruction.
-/

namespace Lifetime

open Transition

universe u v

inductive Use where
  | copy
  | release
  | access
  deriving DecidableEq

/-- The number of pointers after a use, if the object was alive before. -/
def Use.apply : ℕ → Use → Option ℕ
  | 0, _ => none
  | count + 1, .copy => some (count + 2)
  | count + 1, .release => some count
  | count + 1, .access => some (count + 1)

def useEach : ℕ → List Use → Option ℕ
  | count, [] => some count
  | count, use :: uses => (use.apply count).bind fun later => useEach later uses

theorem useEach_destroyed {uses : List Use} {count : ℕ} (used : useEach 0 uses = some count) :
    uses = [] ∧ count = 0 := by
  cases uses with
  | nil => exact ⟨rfl, (Option.some.inj used).symm⟩
  | cons use uses => contradiction

section Positive

variable {count : ℕ} (alive : 0 < count) (uses : List Use)

include alive

theorem useEach_copy : useEach count (.copy :: uses) = useEach (count + 1) uses := by
  rcases Nat.exists_eq_add_one_of_ne_zero (Nat.ne_of_gt alive) with ⟨less, rfl⟩
  rfl

theorem useEach_release : useEach count (.release :: uses) = useEach (count - 1) uses := by
  rcases Nat.exists_eq_add_one_of_ne_zero (Nat.ne_of_gt alive) with ⟨less, rfl⟩
  rfl

theorem useEach_access : useEach count (.access :: uses) = useEach count uses := by
  rcases Nat.exists_eq_add_one_of_ne_zero (Nat.ne_of_gt alive) with ⟨less, rfl⟩
  rfl

end Positive

/-- The pointers to a shared object which the states of a system hold, and their uses. -/
structure Sharing (State : Type u) (Event : Type v) where
  pointers : State → ℕ
  uses : State → Event → List Use
  /-- The step reaches the object through a weak pointer, and is taken only if it lives. -/
  weakly : Event → Bool

namespace Sharing

variable {State : Type u} {Event : Type v}

/-- The system together with the count of the pointers, which is `none` after an undefined
use. -/
def counted (sharing : Sharing State Event) (system : System State Event) :
    System (State × Option ℕ) Event where
  Initial pair := system.Initial pair.1 ∧ pair.2 = some (sharing.pointers pair.1)
  step pair event :=
    if sharing.weakly event = true ∧ pair.2 = some 0 then none
    else
      (system.step pair.1 event).map fun successor =>
        (successor, pair.2.bind fun count => useEach count (sharing.uses pair.1 event))

variable {sharing : Sharing State Event} {system : System State Event}

theorem counted_step_eq_some {state successor : State} {count later : Option ℕ} {event : Event} :
    (sharing.counted system).step (state, count) event = some (successor, later) ↔
      (sharing.weakly event = true → count ≠ some 0) ∧
        system.step state event = some successor ∧
        later = count.bind fun count => useEach count (sharing.uses state event) := by
  simp only [counted, Option.ite_none_left_eq_some, Option.map_eq_some_iff, Prod.mk.injEq, not_and]
  constructor
  · rintro ⟨locks, other, stepped, rfl, rfl⟩
    exact ⟨locks, stepped, rfl⟩
  · rintro ⟨locks, stepped, rfl⟩
    exact ⟨locks, successor, stepped, rfl, rfl⟩

/-- Counting restricts only the steps which are taken through weak pointers. -/
theorem exists_counted_step {state successor : State} {event : Event} {count : Option ℕ}
    (stepped : system.step state event = some successor)
    (locks : sharing.weakly event = true → count ≠ some 0) :
    ∃ later, (sharing.counted system).step (state, count) event = some (successor, later) :=
  ⟨_, counted_step_eq_some.mpr ⟨locks, stepped, rfl⟩⟩

theorem reachable_of_counted {pair : State × Option ℕ}
    (reached : (sharing.counted system).Reachable pair) : system.Reachable pair.1 := by
  apply System.Reachable.invariant
    (motive := fun pair : State × Option ℕ => system.Reachable pair.1) ?_ ?_ reached
  · exact fun _ begins => System.Reachable.start begins.1
  · rintro ⟨state, count⟩ event ⟨successor, later⟩ isReached stepped
    exact isReached.next (counted_step_eq_some.mp stepped).2.1

/-- The uses of every step account for the pointers held before and after it. -/
def Balanced (sharing : Sharing State Event) (system : System State Event) : Prop :=
  ∀ state event successor, system.Reachable state → system.step state event = some successor →
    (sharing.weakly event = true → 0 < sharing.pointers state) →
      useEach (sharing.pointers state) (sharing.uses state event) =
        some (sharing.pointers successor)

/-- The rule of counted pointers: the count is exact at all times. -/
theorem Balanced.count_eq (balanced : sharing.Balanced system) {state : State} {count : Option ℕ}
    (reached : (sharing.counted system).Reachable (state, count)) :
    count = some (sharing.pointers state) := by
  have both : system.Reachable state ∧ count = some (sharing.pointers state) := by
    apply System.Reachable.invariant
      (motive := fun pair : State × Option ℕ =>
        system.Reachable pair.1 ∧ pair.2 = some (sharing.pointers pair.1)) ?_ ?_ reached
    · exact fun _ begins => ⟨System.Reachable.start begins.1, begins.2⟩
    · rintro ⟨before, past⟩ event ⟨successor, later⟩ ⟨isReached, same⟩ stepped
      change past = some (sharing.pointers before) at same
      subst same
      rcases counted_step_eq_some.mp stepped with ⟨locks, moved, rfl⟩
      refine ⟨isReached.next moved, balanced before event successor isReached moved ?_⟩
      intro weak
      have lives := locks weak
      exact Nat.pos_of_ne_zero fun none => lives (congrArg some none)
  exact both.2

/-- Once the object is destroyed it stays so. -/
theorem Balanced.destroyed_step (balanced : sharing.Balanced system) {state successor : State}
    {later : Option ℕ} {event : Event}
    (reached : (sharing.counted system).Reachable (state, some 0))
    (stepped : (sharing.counted system).step (state, some 0) event = some (successor, later)) :
    later = some 0 := by
  have isLater := balanced.count_eq (reached.next stepped)
  rcases counted_step_eq_some.mp stepped with ⟨_, _, isCounted⟩
  rw [isLater, Option.bind_some] at isCounted
  rw [isLater, (useEach_destroyed isCounted.symm).2]

end Sharing

end Lifetime
