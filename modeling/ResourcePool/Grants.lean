import ResourcePool.Async.Retention
import ResourcePool.Sync.StorageActions

/-!
# Which values the pools deliver

A grant of the asynchronous pool is a completion which is submitted with a cell, and a
grant of the synchronous pool is a handle which is returned with one. Next to every run of
either pool its storage has a history; what a granted cell holds was stored after the last
invalidation, and neither its lifespan nor, if it was leased, its idle timeout is over.
-/

namespace ResourcePool

open Storage

/--
No cell which `get` leases, or which `recycle` or `waste` hands over, holds a value that
was stored before an invalidation.
-/
theorem grants_nothing_outdated (V IoContext : Type) [DecidableEq IoContext] :
    (∀ (w : Async.World V IoContext) (history : History),
      (Async.World.trackedSystem V IoContext).Reachable (w, history) →
      ∀ event after, w.step event = some after →
      ∀ submission ∈ w.submits after, ∀ cell, submission.cell = some cell →
        (after.impl.storage.node cell).value.isSome → history.outdated cell = false) ∧
    (∀ (w : Sync.World V) (history : History),
      (Sync.World.trackedSystem V).Reachable (w, history) →
      ∀ event after, w.step event = some after →
      ∀ result ∈ w.returns after, ∀ cell, result.handle.resourceIt = some (.node cell) →
        (after.impl.storage.node cell).value.isSome → history.outdated cell = false) := by
  constructor
  · intro w history reached event after stepped submission isNew cell carries hasValue
    rcases (Async.World.stepped_of_step stepped).2.granted isNew carries with
      ⟨action, acts, granted, _⟩
    have performed := perform_of_step Async.World.storageSimulation stepped acts
    exact (tracked_of_pool reached).granted_not_outdated performed granted hasValue
  · intro w history reached event after stepped result isNew cell holds hasValue
    rcases (Sync.World.stepped_of_step stepped).2.granted isNew holds with
      ⟨now, acts, granted, _⟩
    have performed := perform_of_step Sync.World.storageSimulation stepped acts
    exact (tracked_of_pool reached).granted_not_outdated performed granted hasValue

theorem grants_nothing_outdated_handed_over :
    ∃ w history after,
      (Async.World.trackedSystem ℕ Bool).execute
        (Async.World.oneCell, History.fresh Ticks.zero) Async.World.keepingRun =
          some (w, history) ∧
      w.step (.finish 0 (Ticks.clamp 13)) = some after ∧
      (after.impl.storage.node 0).value = some 7 ∧ history.outdated 0 = false := by
  have ran : ((Async.World.trackedSystem ℕ Bool).execute
      (Async.World.oneCell, History.fresh Ticks.zero) Async.World.keepingRun).isSome := rfl
  have reached := Transition.System.execute_reachable Async.World.oneCell_begins
    (Option.some_get ran).symm
  exact ⟨_, _, _, (Option.some_get ran).symm, rfl, rfl,
    (grants_nothing_outdated ℕ Bool).1 _ _ reached (.finish 0 (Ticks.clamp 13)) _ rfl
      ⟨true, .onServeQueuedHandler (.node 0) (some ⟨1, .recycle⟩)⟩ List.mem_cons_self 0 rfl rfl⟩

/-- The limits for the value in a cell at the time at which the cell is granted. -/
def Async.World.InTime {V IoContext : Type} (w : Async.World V IoContext) (history : History)
    (cell : CellId) : Async.Event V IoContext → Prop
  | .get _ _ _ now =>
      now < TimeTraits.add (history.storedAt cell) w.impl.storage.lifespan ∧
        now < TimeTraits.add (history.returnedAt cell) w.impl.storage.idleTimeout
  | .finish _ now => now < TimeTraits.add (history.storedAt cell) w.impl.storage.lifespan
  | _ => False

/-- The limits for the value in a cell at the time at which the cell is granted. -/
def Sync.World.InTime {V : Type} (w : Sync.World V) (history : History) (cell : CellId) :
    Sync.Event V → Prop
  | .get _ _ _ now | .wake _ _ _ now =>
      now < TimeTraits.add (history.storedAt cell) w.impl.storage.lifespan ∧
        now < TimeTraits.add (history.returnedAt cell) w.impl.storage.idleTimeout
  | _ => False

/--
A value which `get` leases is within its lifespan and its idle timeout, and a value which
`recycle` hands over is within its lifespan. No other event grants a value.
-/
theorem grants_in_time (V IoContext : Type) [DecidableEq IoContext] :
    (∀ (w : Async.World V IoContext) (history : History),
      (Async.World.trackedSystem V IoContext).Reachable (w, history) →
      ∀ event after, w.step event = some after →
      ∀ submission ∈ w.submits after, ∀ cell, submission.cell = some cell →
        (after.impl.storage.node cell).value.isSome → w.InTime history cell event) ∧
    (∀ (w : Sync.World V) (history : History),
      (Sync.World.trackedSystem V).Reachable (w, history) →
      ∀ event after, w.step event = some after →
      ∀ result ∈ w.returns after, ∀ cell, result.handle.resourceIt = some (.node cell) →
        (after.impl.storage.node cell).value.isSome → w.InTime history cell event) := by
  constructor
  · intro w history reached event after stepped submission isNew cell carries hasValue
    rcases (Async.World.stepped_of_step stepped).2.granted isNew carries with
      ⟨action, acts, granted, origin⟩
    have performed := perform_of_step Async.World.storageSimulation stepped acts
    rcases (tracked_of_pool reached).granted_in_time performed granted hasValue with
      ⟨now, rfl, limits⟩ | ⟨now, rfl, life⟩
    · rcases origin with ⟨ioContext, useStrategy, waitDuration, _, rfl, same⟩ | ⟨_, _, _, other⟩
      · rcases StorageAction.lease.inj same with rfl
        exact limits
      · simp at other
    · rcases origin with ⟨_, _, _, _, _, other⟩ | ⟨handle, _, rfl, same⟩
      · simp at other
      · obtain rfl : now = _ := by simpa using same
        exact life
  · intro w history reached event after stepped result isNew cell holds hasValue
    rcases (Sync.World.stepped_of_step stepped).2.granted isNew holds with
      ⟨now, acts, granted, origin⟩
    have performed := perform_of_step Sync.World.storageSimulation stepped acts
    rcases (tracked_of_pool reached).granted_in_time performed granted hasValue with
      ⟨_, same, limits⟩ | ⟨_, other, _⟩
    · rcases StorageAction.lease.inj same with rfl
      rcases origin with ⟨_, _, _, rfl⟩ | ⟨_, _, rfl⟩
      · exact limits
      · exact limits
    · contradiction

theorem grants_in_time_handed_over :
    ∃ w history after,
      (Async.World.trackedSystem ℕ Bool).execute
        (Async.World.oneCell, History.fresh Ticks.zero) Async.World.keepingRun =
          some (w, history) ∧
      w.step (.finish 0 (Ticks.clamp 13)) = some after ∧
      (after.impl.storage.node 0).value = some 7 ∧
      w.InTime history 0 (.finish 0 (Ticks.clamp 13)) := by
  have ran : ((Async.World.trackedSystem ℕ Bool).execute
      (Async.World.oneCell, History.fresh Ticks.zero) Async.World.keepingRun).isSome := rfl
  have reached := Transition.System.execute_reachable Async.World.oneCell_begins
    (Option.some_get ran).symm
  exact ⟨_, _, _, (Option.some_get ran).symm, rfl, rfl,
    (grants_in_time ℕ Bool).1 _ _ reached (.finish 0 (Ticks.clamp 13)) _ rfl
      ⟨true, .onServeQueuedHandler (.node 0) (some ⟨1, .recycle⟩)⟩ List.mem_cons_self 0 rfl rfl⟩

end ResourcePool
