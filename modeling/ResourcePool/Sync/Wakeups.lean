import ResourcePool.Container.Positions
import ResourcePool.Sync.Pool

/-!
# No wakeup is lost

A call of `get` goes to sleep only beside a storage without a free cell, and each cell
which comes back wakes one of the calls that sleep. So at any time either no call sleeps
unnotified, or the free cells do not outnumber the calls which were notified and have not
run again: each free cell will be looked at. A call which runs first and takes the cell
lowers both sides or the left one only.

What is assumed of the condition variable is that a wait which was notified does not report
a timeout. Waits may end without having been notified.
-/

namespace ResourcePool.Sync

open Container

/-- The calls of `get` which sleep and were not notified. -/
def sleeping (waiters : List Waiter) : ℕ := waiters.countP fun waiter => !waiter.notified

/-- The calls of `get` which were notified and do not have the mutex again. -/
def awakened (waiters : List Waiter) : ℕ := waiters.countP Waiter.notified

theorem sleeping_notifyAll (waiters : List Waiter) : sleeping (World.notifyAll waiters) = 0 := by
  simp [sleeping, World.notifyAll, List.countP_map, Function.comp_def]

/-- A notification wakes a sleeping call, if there is one. -/
theorem notifyOne_cases {waiters after : List Waiter} {notified : Option ℕ}
    (notifies : World.notifyOne waiters notified = some after) :
    sleeping waiters = 0 ∧ after = waiters ∨
      sleeping after + 1 = sleeping waiters ∧ awakened after = awakened waiters + 1 := by
  cases notified with
  | none =>
      simp only [World.notifyOne, Option.ite_none_right_eq_some, Option.some.injEq] at notifies
      rcases notifies with ⟨allNotified, rfl⟩
      left
      refine ⟨?_, rfl⟩
      simpa [sleeping, List.countP_eq_zero] using allNotified
  | some index =>
      simp only [World.notifyOne] at notifies
      split at notifies
      · contradiction
      · next waiter isWaiter =>
          simp only [Option.ite_none_left_eq_some, Option.some.injEq] at notifies
          rcases notifies with ⟨isSleeping, rfl⟩
          right
          have sleepers := countP_set_add isWaiter { waiter with notified := true }
            fun waiter => !waiter.notified
          have notified := countP_set_add isWaiter { waiter with notified := true }
            Waiter.notified
          simp only [isSleeping, Bool.not_true, Bool.not_false, Bool.false_eq_true, if_true,
            if_false] at sleepers notified
          exact ⟨sleepers, notified⟩

namespace World

variable {V : Type}

/-- A wait which was notified does not report a timeout. -/
def ReportsNotified (w : World V) : Event V → Prop
  | .wake index _ status _ =>
      ∀ waiter ∈ w.waiters[index]?, waiter.notified = true → status = .noTimeout
  | _ => True

instance : DecidableRel (ReportsNotified : World V → Event V → Prop)
  | w, .wake index _ status _ =>
      inferInstanceAs (Decidable (∀ waiter ∈ w.waiters[index]?,
        waiter.notified = true → status = .noTimeout))
  | _, .get .. | _, .reset .. | _, .operate _ | _, .finish .. | _, .invalidate | _, .disable =>
      .isTrue trivial

/-- No call sleeps unless the free cells are left to others, or in a disabled pool. -/
structure Watchful (w : World V) : Prop where
  cells : sleeping w.waiters = 0 ∨ w.impl.storage.freeCells ≤ awakened w.waiters
  disabled : w.impl.disabled = true → sleeping w.waiters = 0

/-- The waiters which a round of `get` leaves are no more than there were, and one fewer
only if it was notified. -/
theorem Looks.counts {w : World V} {event : Event V} {handle : HandleId}
    {useStrategy : Strategy} {waitDuration : Duration} {now : TimePoint}
    {waiters : List Waiter}
    (looks : w.Looks event handle useStrategy waitDuration now waiters) :
    sleeping waiters ≤ sleeping w.waiters ∧
      awakened w.waiters ≤ awakened waiters + 1 := by
  cases looks with
  | get => exact ⟨Nat.le_refl _, Nat.le_succ _⟩
  | @wake index _ _ waiter isWaiter =>
      have sleepers := countP_eraseIdx_add isWaiter fun waiter => !waiter.notified
      have notified := countP_eraseIdx_add isWaiter Waiter.notified
      simp only [sleeping, awakened]
      split at notified <;> omega

theorem Watchful.step {w after : World V} {event : Event V} (watchful : w.Watchful)
    (reports : w.ReportsNotified event) (stepped : w.Stepped event after) :
    after.Watchful := by
  cases stepped with
  | leased looks isNew active isLeased =>
      have fewer := Storage.freeCells_lease isLeased
      rcases looks.counts with ⟨fewerSleep, notified⟩
      refine ⟨?_, fun disabled => absurd (active.symm.trans disabled) Bool.false_ne_true⟩
      simp only [returnTo]
      rcases watchful.cells with noneSleeps | bounded
      · left
        omega
      · right
        omega
  | refused looks isNew disabled =>
      have noneSleeps := watchful.disabled disabled
      have fewerSleep := looks.counts.1
      have stillNone : sleeping _ = 0 := Nat.le_zero.mp (noneSleeps ▸ fewerSleep)
      exact ⟨Or.inl stillNone, fun _ => stillNone⟩
  | blocked looks active full =>
      have nothingFree := Storage.noFreeCell_iff.mp full
      refine ⟨Or.inr ?_, fun disabled => absurd (active.symm.trans disabled) Bool.false_ne_true⟩
      rw [nothingFree]
      exact Nat.zero_le _
  | @timedOut index handle now waiter isWaiter isNew =>
      have isSleeping : waiter.notified = false := by
        apply Bool.eq_false_iff.mpr
        intro notified
        exact absurd (reports waiter isWaiter notified) (by decide)
      have sleepers := countP_eraseIdx_add isWaiter fun waiter => !waiter.notified
      have notified := countP_eraseIdx_add isWaiter Waiter.notified
      simp only [isSleeping, Bool.not_false, Bool.false_eq_true, if_true, if_false]
        at sleepers notified
      constructor
      · rcases watchful.cells with noneSleeps | bounded
        · left
          simp only [returnTo, sleeping] at noneSleeps ⊢
          omega
        · right
          simp only [returnTo, awakened] at bounded ⊢
          omega
      · intro disabled
        have noneSleeps := watchful.disabled disabled
        simp only [returnTo, sleeping] at noneSleeps ⊢
        omega
  | stored | storedOutside | threw | operated | finishedOutside =>
      exact ⟨watchful.cells, watchful.disabled⟩
  | @tookBack handle now notified returning strategy cell waiters inCall used notifies =>
      have freed := Storage.freeCells_of_erase used
        (w.impl.storage.takeBack_cells_perm strategy used now)
        (w.impl.storage.takeBack_used strategy used now)
      rcases notifyOne_cases notifies with ⟨noneSleeps, rfl⟩ | ⟨oneFewer, oneMore⟩
      · exact ⟨Or.inl noneSleeps, fun _ => noneSleeps⟩
      · constructor
        · right
          change (w.impl.storage.takeBack strategy cell used now).freeCells ≤ awakened waiters
          rcases watchful.cells with noneSleeps | bounded <;> omega
        · intro disabled
          have noneSleeps := watchful.disabled disabled
          change sleeping waiters = 0
          omega
  | invalidated =>
      refine ⟨?_, watchful.disabled⟩
      rw [Storage.freeCells_invalidate]
      exact watchful.cells
  | disabled =>
      exact ⟨Or.inl (sleeping_notifyAll w.waiters), fun _ => sleeping_notifyAll w.waiters⟩

theorem watchful_of_reachable {w : World V}
    (reached : (system V).ReachableVia ReportsNotified w) : w.Watchful := by
  apply reached.invariant
  · rintro _ ⟨impl, isConstructed, rfl⟩
    exact ⟨Or.inl rfl, fun _ => rfl⟩
  · intro before event after watchful reports stepped
    exact watchful.step reports (stepped_of_step stepped).2

/--
While a call of `get` sleeps unnotified, the free cells are no more than the calls which were
notified and have not run again. In a disabled pool no call sleeps unnotified.
-/
theorem loses_no_wakeup {w : World V} (reached : (system V).ReachableVia ReportsNotified w) :
    (sleeping w.waiters = 0 ∨
      w.impl.storage.available.length + w.impl.storage.wasted.length ≤ awakened w.waiters) ∧
    (w.impl.disabled = true → sleeping w.waiters = 0) :=
  ⟨(watchful_of_reachable reached).cells, (watchful_of_reachable reached).disabled⟩

/-- Of two calls which sleep one is notified by the cell which comes back. -/
def wakingRun : List (Event ℕ) :=
  [.get 0 .recycle Ticks.zero (Ticks.clamp 10), .get 1 .waste (Ticks.clamp 5) (Ticks.clamp 11),
    .get 2 .waste (Ticks.clamp 5) (Ticks.clamp 12), .operate (.giveBack 0 .recycle),
    .finish 0 (Ticks.clamp 13) (some 1)]

theorem loses_no_wakeup_returned :
    ∃ w, (system ℕ).execute oneCell wakingRun = some w ∧ sleeping w.waiters = 1 ∧
      w.impl.storage.available = [0] ∧
      (sleeping w.waiters = 0 ∨
        w.impl.storage.available.length + w.impl.storage.wasted.length ≤
          awakened w.waiters) := by
  have ran : ((system ℕ).execute oneCell wakingRun).isSome := rfl
  have meets : (system ℕ).EachStep ReportsNotified oneCell wakingRun := by decide
  have reached := (Transition.System.ReachableVia.start oneCell_initial).execute meets
    (Option.some_get ran).symm
  exact ⟨_, (Option.some_get ran).symm, rfl, rfl, (loses_no_wakeup reached).1⟩

end World

end ResourcePool.Sync
