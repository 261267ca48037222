import ResourcePool.Sync.StorageActions

/-!
# Values of the synchronous pool are dropped only for a reason

The synchronous pool never hands a cell over, so that each client gets its cell by a lease
which clears the mark of the cell. Every value which is dropped is then dropped for a
reason, in all runs.
-/

namespace ResourcePool.Sync.World

open Storage

variable {V : Type}

theorem storageAction_handsOverUnmarked (w : World V) (event : Event V)
    (action : StorageAction V) (acts : w.storageAction event = some action) :
    w.impl.storage.HandsOverUnmarked action := by
  cases event with
  | get handle useStrategy waitDuration now =>
      simp only [storageAction, Option.ite_none_left_eq_some, Option.some.injEq] at acts
      rw [← acts.2]
      trivial
  | wake waiter handle status now =>
      cases status with
      | timeout => contradiction
      | noTimeout =>
          simp only [storageAction, Option.ite_none_left_eq_some, Option.some.injEq] at acts
          rw [← acts.2]
          trivial
  | reset handle value now =>
      simp only [storageAction] at acts
      split at acts
      · simp only [Option.ite_none_right_eq_some, Option.some.injEq] at acts
        rw [← acts.2]
        trivial
      · contradiction
  | finish handle now notified =>
      simp only [storageAction] at acts
      split at acts
      · next strategy cell _ =>
          simp only [Option.ite_none_right_eq_some] at acts
          rcases acts with ⟨_, isAction⟩
          cases strategy with
          | recycle =>
              rw [← Option.some.inj isAction]
              trivial
          | waste =>
              rw [← Option.some.inj isAction]
              trivial
      · contradiction
  | invalidate =>
      rw [← Option.some.inj acts]
      trivial
  | operate | disable => contradiction

/--
A value is dropped only for one of the reasons of `DropReason`. A value stored under a
lease which was granted after the last invalidation is kept if it is recycled within its
lifespan.
-/
theorem values_dropped_for_reason {w : World V} {history : History}
    (reached : (trackedSystem V).Reachable (w, history)) :
    (∀ event after cell, w.step event = some after →
      w.impl.storage.Drops after.impl.storage cell →
        ∃ action, w.storageAction event = some action ∧
          w.impl.storage.DropReason history action cell) ∧
    (∀ handle now notified after returning cell,
      w.step (.finish handle now notified) = some after →
      w.handles.lookup handle = some ⟨returning, some ⟨some (), some .recycle, .node cell⟩⟩ →
      history.invalidatedSinceGrant cell = false →
      now < TimeTraits.add (history.storedAt cell) w.impl.storage.lifespan →
        (after.impl.storage.node cell).value = (w.impl.storage.node cell).value) := by
  have ensures : ∀ (w : World V) (event : Event V) action, True →
      storageSimulation.action w event = some action →
        (storageSimulation.project w).HandsOverUnmarked action :=
    fun w event action _ => storageAction_handsOverUnmarked w event action
  rcases tracked_and_grantsAgree_of_pool ensures reached with ⟨tracked, agree⟩
  change w.impl.storage.Tracked history at tracked
  change w.impl.storage.GrantsAgree history at agree
  constructor
  · intro event after cell stepped drops
    rcases (stepped_of_step stepped).2.storage with ⟨action, acts, performed⟩ | ⟨_, unchanged⟩
    · exact ⟨action, acts, tracked.dropReason agree performed drops⟩
    · rcases drops with ⟨hasValue, gone⟩
      rw [unchanged] at gone
      simp [gone] at hasValue
  · intro handle now notified after returning cell stepped inCall granted living
    rcases (stepped_of_step stepped).2.storage with ⟨action, acts, performed⟩ | ⟨_, unchanged⟩
    · simp only [storageAction, inCall, Option.ite_none_right_eq_some, Option.some.injEq] at acts
      exact tracked.kept agree (Or.inl acts.2.symm) performed granted living
    · rw [unchanged]

theorem oneCell_begins :
    (trackedSystem ℕ).Initial (oneCell, History.fresh Ticks.zero) :=
  ⟨oneCell_initial, Ticks.zero, .empty 1 Ticks.max Ticks.max Ticks.zero, rfl⟩

/-- A client which got its cell before the pool was invalidated gives it back, and the next
one, which was blocked meanwhile, stores a value and gives the cell back. -/
def keepingRun : List (Event ℕ) :=
  [.get 0 .recycle Ticks.zero (Ticks.clamp 10), .reset 0 5 (Ticks.clamp 10),
    .get 1 .recycle (Ticks.clamp 9) (Ticks.clamp 11), .invalidate,
    .operate (.giveBack 0 .recycle), .finish 0 (Ticks.clamp 12) (some 0),
    .wake 0 1 .noTimeout (Ticks.clamp 13), .reset 1 7 (Ticks.clamp 14),
    .operate (.giveBack 1 .recycle)]

theorem values_dropped_for_reason_kept :
    ∃ w after, (system ℕ).execute oneCell keepingRun = some w ∧
      w.step (.finish 1 (Ticks.clamp 15) none) = some after ∧
      (after.impl.storage.node 0).value = (w.impl.storage.node 0).value ∧
      (w.impl.storage.node 0).value = some 7 := by
  have ran : ((trackedSystem ℕ).execute (oneCell, History.fresh Ticks.zero)
    keepingRun).isSome := rfl
  have reached := Transition.System.execute_reachable oneCell_begins (Option.some_get ran).symm
  exact ⟨_, _, rfl, rfl,
    (values_dropped_for_reason reached).2 1 (Ticks.clamp 15) none _ _ 0 rfl rfl rfl (by decide),
    rfl⟩

end ResourcePool.Sync.World
