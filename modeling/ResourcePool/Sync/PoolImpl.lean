import ResourcePool.Handle

/-!
# The implementation of the synchronous pool

The member functions of `sync::detail::pool_impl`. `get` is a loop under the mutex:
`attempt` is one round of it, up to the wait, which gives the mutex away, and `resume` is
what follows once the wait has the mutex again and reports a status.

A section is undefined, `none`, where it gives back a cell which is not in the used list.
-/

namespace ResourcePool.Sync

inductive CvStatus where
  | noTimeout
  | timeout
  deriving DecidableEq

/-- A round of `get` returns, or calls `wait_for` with a duration. -/
inductive GetOutcome where
  | returned (error : Error.Code) (listIterator : CellIterator)
  | waits (waitDuration : Duration)
  deriving DecidableEq

/-- `sync::stats`. -/
structure Stats where
  size : ℕ
  available : ℕ
  used : ℕ
  deriving DecidableEq

structure PoolImpl (V : Type) where
  storage : Storage V
  capacity : ℕ
  disabled : Bool

namespace PoolImpl

variable {V : Type}

def constructed (capacity : ℕ) (idleTimeout lifespan : Duration) :
    Except Error.LogicError (PoolImpl V) := do
  let checked ← assertCapacity capacity
  return {
    storage := Storage.empty checked idleTimeout lifespan
    capacity := capacity
    disabled := false }

def generated (capacity : ℕ) (genValue : Fin capacity → V) (idleTimeout lifespan : Duration)
    (now : TimePoint) : Except Error.LogicError (PoolImpl V) := do
  let _ ← assertCapacity capacity
  return {
    storage := Storage.generated capacity genValue idleTimeout lifespan now
    capacity := capacity
    disabled := false }

/-- A round of the loop of `pool_impl::get` at clock reading `now`. -/
def attempt (impl : PoolImpl V) (waitDuration : Duration) (now : TimePoint) :
    PoolImpl V × GetOutcome :=
  if impl.disabled then
    (impl, .returned .disabled .singular)
  else
    let (cell, storage) := impl.storage.lease now
    let impl := { impl with storage := storage }
    match cell with
    | some cell => (impl, .returned .ok (.node cell))
    | none => (impl, .waits waitDuration)

/-- What `pool_impl::get` does after `wait_for` has reported a status. -/
def resume (impl : PoolImpl V) (status : CvStatus) (waitDuration : Duration)
    (now : TimePoint) : PoolImpl V × GetOutcome :=
  match status with
  | .noTimeout => impl.attempt waitDuration now
  | .timeout => (impl, .returned .getResourceTimeout .singular)

/-- `pool_impl::recycle` at clock reading `now`, before it notifies. -/
def recycle (impl : PoolImpl V) (resIt : CellIterator) (now : TimePoint) :
    Option (PoolImpl V) :=
  match resIt with
  | .singular => none
  | .node cell =>
      if member : cell ∈ impl.storage.used then
        some { impl with storage := impl.storage.recycle cell member now }
      else none

def waste (impl : PoolImpl V) (resIt : CellIterator) : Option (PoolImpl V) :=
  match resIt with
  | .singular => none
  | .node cell =>
      if member : cell ∈ impl.storage.used then
        some { impl with storage := impl.storage.waste cell member }
      else none

/-- `recycle` or `waste`, as a strategy says. -/
def giveBack (impl : PoolImpl V) (strategy : Strategy) (resIt : CellIterator)
    (now : TimePoint) : Option (PoolImpl V) :=
  match strategy with
  | .recycle => impl.recycle resIt now
  | .waste => impl.waste resIt

def disable (impl : PoolImpl V) : PoolImpl V := { impl with disabled := true }

def invalidate (impl : PoolImpl V) : PoolImpl V :=
  { impl with storage := impl.storage.invalidate }

def stats (impl : PoolImpl V) : Stats where
  size := impl.storage.stats.available + impl.storage.stats.used
  available := impl.storage.stats.available
  used := impl.storage.stats.used

/-! ### What the sections do -/

/-- A round of `get`, by its three exits. -/
theorem attempt_cases (impl : PoolImpl V) (waitDuration : Duration) (now : TimePoint) :
    (impl.disabled = true ∧
      impl.attempt waitDuration now = (impl, .returned .disabled .singular)) ∨
    (impl.disabled = false ∧ ∃ cell, (impl.storage.lease now).1 = some cell ∧
      impl.attempt waitDuration now =
        ({ impl with storage := (impl.storage.lease now).2 }, .returned .ok (.node cell))) ∨
    (impl.disabled = false ∧ impl.storage.NoFreeCell ∧
      impl.attempt waitDuration now = (impl, .waits waitDuration)) := by
  by_cases disabled : impl.disabled = true
  · exact Or.inl ⟨disabled, by simp only [attempt, if_pos disabled]⟩
  · have active : impl.disabled = false := by simpa using disabled
    right
    cases leased : (impl.storage.lease now).1 with
    | some cell =>
        exact Or.inl ⟨active, cell, rfl, by simp only [attempt, if_neg disabled, leased]⟩
    | none =>
        rcases Storage.lease_none leased with ⟨full, unchanged⟩
        exact Or.inr ⟨active, full, by simp only [attempt, if_neg disabled, unchanged]⟩

/-- Every round waits for the whole duration which its call was given. -/
theorem requested_of_attempt {impl : PoolImpl V} {waitDuration requested : Duration}
    {now : TimePoint} (waits : (impl.attempt waitDuration now).2 = .waits requested) :
    requested = waitDuration := by
  rcases impl.attempt_cases waitDuration now with
    ⟨_, result⟩ | ⟨_, _, _, result⟩ | ⟨_, _, result⟩ <;>
  rw [result] at waits
  · contradiction
  · contradiction
  · exact (GetOutcome.waits.inj waits).symm

theorem giveBack_used (impl : PoolImpl V) (strategy : Strategy) {cell : CellId}
    (member : cell ∈ impl.storage.used) (now : TimePoint) :
    impl.giveBack strategy (.node cell) now =
      some { impl with storage := impl.storage.takeBack strategy cell member now } := by
  cases strategy <;> simp [giveBack, recycle, waste, member, Storage.takeBack]

theorem used_of_giveBack {impl after : PoolImpl V} {strategy : Strategy}
    {resIt : CellIterator} {now : TimePoint}
    (isDefined : impl.giveBack strategy resIt now = some after) :
    ∃ cell, resIt = .node cell ∧ cell ∈ impl.storage.used := by
  cases resIt with
  | singular => cases strategy <;> simp [giveBack, recycle, waste] at isDefined
  | node cell =>
      refine ⟨cell, rfl, ?_⟩
      cases strategy <;>
        simp only [giveBack, recycle, waste, Option.dite_none_right_eq_some] at isDefined <;>
        exact isDefined.1

end PoolImpl

end ResourcePool.Sync
