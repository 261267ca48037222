import ResourcePool.Storage.Projection
import ResourcePool.Sync.Pool

/-!
# The synchronous pool acts on its storage

Which action of the storage a step of the pool performs. A cell is granted to a client by
the steps in which a call of `get` returns with this cell, and these lease it.
-/

namespace ResourcePool.Sync.World

variable {V : Type}

/-- The action of the storage which an event performs, where it is defined. -/
def storageAction (w : World V) : Event V → Option (StorageAction V)
  | .get _ _ _ now => if w.impl.disabled then none else some (.lease now)
  | .wake _ _ .noTimeout now => if w.impl.disabled then none else some (.lease now)
  | .reset handle value now =>
      match w.handles.lookup handle with
      | some ⟨⟨_, _, some (.node cell)⟩, none⟩ =>
          if cell ∈ w.impl.storage.used then some (.reset cell value now) else none
      | _ => none
  | .finish handle now _ =>
      match w.handles.lookup handle with
      | some ⟨_, some ⟨some (), some strategy, .node cell⟩⟩ =>
          if cell ∈ w.impl.storage.used then
            match strategy with
            | .recycle => some (.recycle cell now)
            | .waste => some (.waste cell)
          else none
      | _ => none
  | .invalidate => some .invalidate
  | _ => none

theorem Looks.storageAction {w : World V} {event : Event V} {handle : HandleId}
    {useStrategy : Strategy} {waitDuration : Duration} {now : TimePoint}
    {waiters : List Waiter}
    (looks : w.Looks event handle useStrategy waitDuration now waiters) :
    w.storageAction event = if w.impl.disabled then none else some (.lease now) := by
  cases looks with
  | get => rfl
  | wake => rfl

theorem Stepped.storage {w after : World V} {event : Event V}
    (stepped : w.Stepped event after) :
    (∃ action, w.storageAction event = some action ∧
      w.impl.storage.perform action = some after.impl.storage) ∨
    (w.storageAction event = none ∧ after.impl.storage = w.impl.storage) := by
  cases stepped with
  | @leased _ _ _ _ now _ _ looks isNew active isLeased =>
      exact Or.inl ⟨.lease now, by simp [looks.storageAction, active], rfl⟩
  | refused looks isNew disabled =>
      exact Or.inr ⟨by simp [looks.storageAction, disabled], rfl⟩
  | @blocked _ _ _ _ now _ looks active full =>
      refine Or.inl ⟨.lease now, by simp [looks.storageAction, active], ?_⟩
      simp [Storage.perform, Storage.lease_of_noFreeCell now full]
  | timedOut | operated | disabled => exact Or.inr ⟨rfl, rfl⟩
  | @stored handle value now ready cell isReady holds used =>
      rcases ready with ⟨_, _, resourceIt⟩
      have equal : resourceIt = some (.node cell) := holds
      subst equal
      exact Or.inl ⟨.reset cell value now, by simp [World.storageAction, isReady, used],
        by simp [Storage.perform, used]⟩
  | @storedOutside handle value now ready resourceIt isReady holds outside =>
      rcases ready with ⟨_, _, it⟩
      have equal : it = some resourceIt := holds
      subst equal
      refine Or.inr ⟨?_, rfl⟩
      cases resourceIt with
      | singular => simp [World.storageAction, isReady]
      | node cell => simp [World.storageAction, isReady, outside cell rfl]
  | @threw handle value now ready isReady unusable =>
      rcases ready with ⟨_, _, it⟩
      have equal : it = none := unusable
      subst equal
      exact Or.inr ⟨by simp [World.storageAction, isReady], rfl⟩
  | @tookBack handle now notified returning strategy cell waiters inCall used notifies =>
      cases strategy with
      | recycle =>
          exact Or.inl ⟨.recycle cell now, by simp [World.storageAction, inCall, used],
            by simp [Storage.perform, used, Storage.takeBack]⟩
      | waste =>
          exact Or.inl ⟨.waste cell, by simp [World.storageAction, inCall, used],
            by simp [Storage.perform, used, Storage.takeBack]⟩
  | @finishedOutside handle now notified returning call inCall outside =>
      refine Or.inr ⟨?_, rfl⟩
      rcases call with ⟨_ | _, _ | strategy, _ | cell⟩ <;> simp [World.storageAction, inCall]
      intro used
      exact absurd used (outside strategy cell rfl)
  | invalidated => exact Or.inl ⟨.invalidate, rfl, rfl⟩

/-- The results which a step returns to clients. -/
def returns (w after : World V) : List GetResult := after.returned.drop w.returned.length

theorem mem_of_mem_returns {w after : World V} {results : List GetResult}
    (returned : after.returned = w.returned ++ results) {result : GetResult}
    (isNew : result ∈ w.returns after) : result ∈ results := by
  rwa [returns, returned, List.drop_left] at isNew

theorem not_mem_returns {w after : World V} (returned : after.returned = w.returned)
    {result : GetResult} : result ∉ w.returns after := by
  rw [returns, returned, List.drop_length]
  exact List.not_mem_nil

/-- A handle with a cell is returned by the step which leases this cell. -/
theorem Stepped.granted {w after : World V} {event : Event V} (stepped : w.Stepped event after)
    {result : GetResult} (isNew : result ∈ w.returns after) {cell : CellId}
    (holds : result.handle.resourceIt = some (.node cell)) :
    ∃ now, w.storageAction event = some (.lease now) ∧
      w.impl.storage.granted (.lease now) = some cell ∧
      ((∃ handle useStrategy waitDuration, event = .get handle useStrategy waitDuration now) ∨
        ∃ waiter handle, event = .wake waiter handle .noTimeout now) := by
  cases stepped with
  | @leased _ handle useStrategy waitDuration now _ leased looks absent active isLeased =>
      rcases List.mem_singleton.mp (mem_of_mem_returns rfl isNew) with rfl
      have equal : leased = cell := CellIterator.node.inj (Option.some.inj holds)
      subst equal
      refine ⟨now, by simp [looks.storageAction, active], isLeased, ?_⟩
      cases looks with
      | get => exact Or.inl ⟨_, _, _, rfl⟩
      | wake => exact Or.inr ⟨_, _, rfl⟩
  | refused | timedOut =>
      rcases List.mem_singleton.mp (mem_of_mem_returns rfl isNew) with rfl
      simp [getHandle, Handle.constructed] at holds
  | blocked | stored | storedOutside | threw | operated | tookBack | finishedOutside
  | invalidated | disabled => exact absurd isNew (not_mem_returns rfl)

def storageSimulation : Transition.Simulation (system V) (Storage.system V) :=
  .ofSteps (fun w => w.impl.storage) storageAction
    (by
      rintro _ ⟨impl, isConstructed, rfl⟩
      exact isConstructed.spec.2.1)
    fun _ _ _ stepped => (stepped_of_step stepped).2.storage

abbrev trackedSystem (V : Type) : Transition.System (World V × History) (Event V) :=
  Storage.withStorageHistory storageSimulation

end ResourcePool.Sync.World
