import ResourcePool.Async.StorageActions
import ResourcePool.Storage.Turnover
import ResourcePool.Sync.StorageActions

/-!
# How the pools reuse their resources

Both pools grant a free cell by the same section, `get` under the mutex, so that both reuse
their resources in the order in which these came back, and every section of this kind ends
the idle times which are over.
-/

namespace ResourcePool

open Storage

abbrev Async.World.timedSystem (V IoContext : Type) [DecidableEq IoContext] :
    Transition.System (Async.World V IoContext × Timeline) (Async.Event V IoContext) :=
  withTimeline Async.World.storageSimulation

abbrev Sync.World.timedSystem (V : Type) :
    Transition.System (Sync.World V × Timeline) (Sync.Event V) :=
  withTimeline Sync.World.storageSimulation

/--
As long as the clock does not go back, a `get` which looks for a free cell leaves no resource
in either pool whose idle time is over, although it looks no further than to the first cell
which has not expired. If it leases a cell, this one came back first of all which remain.
-/
theorem get_ends_idle_times (V IoContext : Type) [DecidableEq IoContext] :
    (∀ (w : Async.World V IoContext) (timeline : Timeline),
      (Async.World.timedSystem V IoContext).ReachableVia
        (ReadsForward Async.World.storageSimulation) (w, timeline) →
      ∀ event after now, w.step event = some after →
      w.storageAction event = some (.lease now) →
        after.impl.storage.NoneIdleOver timeline now ∧
        ∀ submission ∈ w.submits after, ∀ cell, submission.cell = some cell →
          after.impl.storage.ReturnedFirst timeline cell) ∧
    (∀ (w : Sync.World V) (timeline : Timeline),
      (Sync.World.timedSystem V).ReachableVia
        (ReadsForward Sync.World.storageSimulation) (w, timeline) →
      ∀ event after now, w.step event = some after →
      w.storageAction event = some (.lease now) →
        after.impl.storage.NoneIdleOver timeline now ∧
        ∀ result ∈ w.returns after, ∀ cell, result.handle.resourceIt = some (.node cell) →
          after.impl.storage.ReturnedFirst timeline cell) := by
  constructor
  · intro w timeline reached event after now stepped leases
    rcases noneIdleOver_of_pool reached stepped leases with ⟨noneOver, first⟩
    refine ⟨noneOver, ?_⟩
    intro submission isNew cell carries
    rcases (Async.World.stepped_of_step stepped).2.granted isNew carries with
      ⟨action, acts, granted, _⟩
    rw [leases, Option.some.injEq] at acts
    exact first cell (acts ▸ granted)
  · intro w timeline reached event after now stepped leases
    rcases noneIdleOver_of_pool reached stepped leases with ⟨noneOver, first⟩
    refine ⟨noneOver, ?_⟩
    intro result isNew cell holds
    rcases (Sync.World.stepped_of_step stepped).2.granted isNew holds with
      ⟨other, acts, granted, _⟩
    rw [leases, Option.some.injEq] at acts
    exact first cell (acts ▸ granted)

/-- A pool of three cells whose values idle for ten ticks at most. -/
def threeCells : Async.World ℕ Bool :=
  Async.World.initially
    ⟨Storage.generated 3 (fun cell => cell) (Ticks.clamp 10) Ticks.max Ticks.zero, 3,
      Async.CoherentQueue.constructed 1, false⟩

theorem threeCells_initial : (Async.World.timedSystem ℕ Bool).Initial
    (threeCells, { History.fresh Ticks.zero with latest := Ticks.zero }) :=
  ⟨⟨_, .generated (show Async.PoolImpl.generated 3 _ 1 (Ticks.clamp 10) Ticks.max Ticks.zero =
      .ok _ from rfl), rfl⟩, .generated .., rfl⟩

/-- The cells come back in the order in which they were leased, at different times. -/
def returningRun : List (Async.Event ℕ Bool) :=
  [.get false .recycle Ticks.zero (Ticks.clamp 1), .run 0 0,
    .get false .recycle Ticks.zero (Ticks.clamp 2), .run 0 1,
    .get true .recycle Ticks.zero (Ticks.clamp 3), .run 0 2,
    .operate (.giveBack 0 .recycle), .finish 0 (Ticks.clamp 4),
    .operate (.giveBack 1 .recycle), .finish 1 (Ticks.clamp 8),
    .operate (.giveBack 2 .recycle), .finish 2 (Ticks.clamp 9)]

/-- The value which came back first has idled too long, the one which came back next is
granted, and the last one remains. -/
theorem get_ends_idle_times_returned :
    ∃ w timeline after,
      (Async.World.timedSystem ℕ Bool).execute
        (threeCells, { History.fresh Ticks.zero with latest := Ticks.zero }) returningRun =
          some (w, timeline) ∧
      w.step (.get true .recycle Ticks.zero (Ticks.clamp 15)) = some after ∧
      after.impl.storage.available = [2] ∧ (after.impl.storage.node 0).value = none ∧
      after.impl.storage.NoneIdleOver timeline (Ticks.clamp 15) ∧
      after.impl.storage.ReturnedFirst timeline 1 := by
  have ran : ((Async.World.timedSystem ℕ Bool).execute
      (threeCells, { History.fresh Ticks.zero with latest := Ticks.zero }) returningRun).isSome :=
    rfl
  have forward : (Async.World.timedSystem ℕ Bool).EachStep
      (ReadsForward Async.World.storageSimulation)
      (threeCells, { History.fresh Ticks.zero with latest := Ticks.zero }) returningRun := by
    decide
  have reached := (Transition.System.ReachableVia.start threeCells_initial).execute forward
    (Option.some_get ran).symm
  have ended := (get_ends_idle_times ℕ Bool).1 _ _ reached
    (.get true .recycle Ticks.zero (Ticks.clamp 15)) _ (Ticks.clamp 15) rfl rfl
  exact ⟨_, _, _, (Option.some_get ran).symm, rfl, rfl, rfl, ended.1,
    ended.2 _ List.mem_cons_self 1 rfl⟩

end ResourcePool
