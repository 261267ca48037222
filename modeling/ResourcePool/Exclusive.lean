import ResourcePool.Async.StorageActions
import ResourcePool.Storage.Frame
import ResourcePool.Sync.Ownership
import ResourcePool.Sync.StorageActions

/-!
# A handle has its cell for itself

Whatever other clients do, and whatever the pool does to other cells, a client finds in its
handle what it has left there. `Lending` says what this takes of a pool: the steps which act
on a used cell name the handle which holds it. The argument is made once for both pools.
-/

namespace ResourcePool

open Container Transition

universe v w

/-- The handles which an operation names. -/
def HandleEvent.names : HandleEvent → List HandleId
  | .create handle | .destroy handle | .giveBack handle _ | .release handle => [handle]
  | .moveConstruct handle source | .moveAssign handle source => [handle, source]

theorem Handles.Acted.lookup {handles after : Handles} {event : HandleEvent}
    (acted : handles.Acted event after) {handle : HandleId} (spared : handle ∉ event.names) :
    after.lookup handle = handles.lookup handle := by
  cases acted with
  | created | selfAssigned =>
      simp only [HandleEvent.names, List.mem_cons, List.not_mem_nil, or_false, not_or] at spared
      exact AList.lookup_insert_ne (by simp_all)
  | moveConstructed | moveAssigned =>
      simp only [HandleEvent.names, List.mem_cons, List.not_mem_nil, or_false, not_or] at spared
      rw [AList.lookup_insert_ne spared.1, AList.lookup_insert_ne spared.2]
  | destroyed =>
      simp only [HandleEvent.names, List.mem_cons, List.not_mem_nil, or_false] at spared
      exact AList.lookup_erase_ne spared
  | threw => rfl
  | called calls =>
      rcases calls with ⟨requested, rfl, _⟩ | ⟨rfl, _⟩ <;>
      · simp only [HandleEvent.names, List.mem_cons, List.not_mem_nil, or_false] at spared
        exact AList.lookup_insert_ne spared

/-- A pool which lends the cells of its storage to handles, in the states of an invariant. -/
structure Lending {V : Type} {State : Type v} {Event : Type w} (pool : System State Event)
    (simulation : Simulation pool (Storage.system V)) where
  handles : State → Handles
  /-- The handles which an event is about. -/
  names : Event → List HandleId
  Known : State → Prop
  preserved : ∀ state event after, Known state → pool.step state event = some after → Known after
  owners : ∀ state, Known state →
    ∀ cell, (handles state).cells.count cell ≤ (simulation.project state).used.count cell
  spared : ∀ state event after, Known state → pool.step state event = some after →
    ∀ handle ∉ names event, (handles after).lookup handle = (handles state).lookup handle
  named : ∀ state event action, Known state → simulation.action state event = some action →
    ∀ cell, action.target = some cell → ∃ handle ∈ names event, ∃ holder,
      (handles state).lookup handle = some holder ∧ holder.cell = some cell

namespace Lending

variable {V : Type} {State : Type v} {Event : Type w} {pool : System State Event}
variable {simulation : Simulation pool (Storage.system V)} {state final : State}
variable {handle : HandleId} {holder : HandleState} {cell : CellId}

theorem used_of_lookup (lending : Lending pool simulation) (known : lending.Known state)
    (found : (lending.handles state).lookup handle = some holder)
    (holds : holder.cell = some cell) : cell ∈ (simulation.project state).used := by
  rw [← List.count_pos_iff]
  apply lt_of_lt_of_le ?_ (lending.owners state known cell)
  exact List.count_pos_iff.mpr (Handles.mem_cells found holds)

theorem holder_unique (lending : Lending pool simulation) (known : lending.Known state)
    {other : HandleId} {otherHolder : HandleState}
    (found : (lending.handles state).lookup handle = some holder)
    (otherFound : (lending.handles state).lookup other = some otherHolder)
    (holds : holder.cell = some cell) (otherHolds : otherHolder.cell = some cell) :
    handle = other := by
  have once : (lending.handles state).cells.Nodup := by
    rw [List.nodup_iff_count_le_one]
    intro cell
    apply le_trans (lending.owners state known cell)
    exact List.nodup_iff_count_le_one.mp (simulation.project state).used_nodup cell
  exact name_unique_of_held once found otherFound holds otherHolds

/-- A step which does not name the holder of a cell leaves the cell alone. -/
theorem step (lending : Lending pool simulation) {event : Event} (known : lending.Known state)
    (found : (lending.handles state).lookup handle = some holder)
    (holds : holder.cell = some cell) (stepped : pool.step state event = some final)
    (spared : handle ∉ lending.names event) :
    (lending.handles final).lookup handle = some holder ∧
      ((simulation.project state).node cell).Keeps ((simulation.project final).node cell) := by
  refine ⟨(lending.spared state event final known stepped handle spared).trans found, ?_⟩
  cases performs : simulation.action state event with
  | none =>
      rw [simulation.stutters state event final stepped performs]
      exact .of_eq rfl
  | some action =>
      have performed := simulation.acts state event final action stepped performs
      have apart : action.target ≠ some cell := by
        intro isTarget
        rcases lending.named state event action known performs cell isTarget with
          ⟨other, named, otherHolder, otherFound, otherHolds⟩
        have same := lending.holder_unique known found otherFound holds otherHolds
        exact spared (same ▸ named)
      exact (Storage.perform_frame performed (lending.used_of_lookup known found holds) apart).2

/-- A run which does not name the holder of a cell leaves the cell to it as it is. -/
theorem run (lending : Lending pool simulation) (known : lending.Known state)
    (found : (lending.handles state).lookup handle = some holder)
    (holds : holder.cell = some cell)
    (leads : pool.LeadsTo (fun _ event => handle ∉ lending.names event) state final) :
    lending.Known final ∧ (lending.handles final).lookup handle = some holder ∧
      cell ∈ (simulation.project final).used ∧
      ((simulation.project state).node cell).Keeps ((simulation.project final).node cell) := by
  induction leads with
  | refl => exact ⟨known, found, lending.used_of_lookup known found holds, .of_eq rfl⟩
  | @tail before after _ last ih =>
      rcases last with ⟨event, spared, stepped⟩
      rcases ih with ⟨isKnown, isFound, _, kept⟩
      have knownNext := lending.preserved before event after isKnown stepped
      rcases lending.step isKnown isFound holds stepped spared with ⟨foundNext, keptNext⟩
      exact ⟨knownNext, foundNext, lending.used_of_lookup knownNext foundNext holds,
        kept.trans keptNext⟩

/-- A client finds through its handle what it finds there now, until it uses the handle. -/
theorem reads_unchanged (lending : Lending pool simulation) {ready : Handle Unit}
    (known : lending.Known state)
    (found : (lending.handles state).lookup handle = some ⟨ready, none⟩)
    (holds : ready.resourceIt = some (.node cell))
    (leads : pool.LeadsTo (fun _ event => handle ∉ lending.names event) state final) :
    (lending.handles final).lookup handle = some ⟨ready, none⟩ ∧
      (simulation.project final).getThrough ready = (simulation.project state).getThrough ready ∧
      (simulation.project final).emptyThrough ready =
        (simulation.project state).emptyThrough ready := by
  have isCell : HandleState.cell ⟨ready, none⟩ = some cell := by
    rw [HandleState.cell, holds]
    rfl
  rcases lending.run known found isCell leads with ⟨_, isFound, _, kept⟩
  refine ⟨isFound, ?_, ?_⟩
  · simp only [Storage.getThrough, holds, kept.value]
  · simp only [Storage.emptyThrough, holds, kept.value]

end Lending

/-- The handles which an event is about. -/
def Async.Event.names {V IoContext : Type} : Async.Event V IoContext → List HandleId
  | .run _ handle | .reset handle _ _ | .finish handle _ => [handle]
  | .operate event => event.names
  | .get .. | .push .. | .invalidate | .disable | .fire .. | .deliver _ => []

/-- The handles which an event is about. -/
def Sync.Event.names {V : Type} : Sync.Event V → List HandleId
  | .get handle _ _ _ | .wake _ handle _ _ | .reset handle _ _ | .finish handle _ _ => [handle]
  | .operate event => event.names
  | .invalidate | .disable => []

namespace Async.World

variable {V IoContext : Type} [DecidableEq IoContext]

omit [DecidableEq IoContext] in
theorem Stepped.spared {w after : World V IoContext} {event : Event V IoContext}
    (stepped : w.Stepped event after) {handle : HandleId} (spared : handle ∉ event.names) :
    after.handles.lookup handle = w.handles.lookup handle := by
  cases stepped with
  | ran | tookBack | handedOn =>
      exact AList.lookup_insert_ne (by simpa [Event.names] using spared)
  | operated acted => exact acted.lookup spared
  | _ => rfl

omit [DecidableEq IoContext] in
theorem Owned.named {w : World V IoContext} (owned : w.Owned) {event : Event V IoContext}
    {action : StorageAction V} (acts : w.storageAction event = some action) {cell : CellId}
    (isTarget : action.target = some cell) : ∃ handle ∈ event.names, ∃ holder,
      w.handles.lookup handle = some holder ∧ holder.cell = some cell := by
  cases event with
  | reset handle value now =>
      simp only [storageAction] at acts
      split at acts
      · next _ _ own found =>
          rw [Option.ite_none_right_eq_some, Option.some.injEq] at acts
          rcases acts with ⟨_, rfl⟩
          exact ⟨handle, List.mem_singleton_self handle, _, found, isTarget⟩
      · contradiction
  | finish handle now =>
      simp only [storageAction] at acts
      split at acts
      · next returning strategy own found =>
          rw [Option.ite_none_right_eq_some, Option.some.injEq] at acts
          rcases acts with ⟨_, rfl⟩
          have same : own = cell := by
            simp only [returnAction] at isTarget
            split at isTarget <;> split at isTarget <;> exact Option.some.inj isTarget
          rcases (owned.sound _ _ found).of_call with ⟨_, held, isCall, holds⟩
          obtain ⟨-, rfl⟩ : strategy = _ ∧ own = held := by simpa using isCall
          exact ⟨handle, List.mem_singleton_self handle, _, found, same ▸ holds⟩
      · contradiction
  | get =>
      simp only [storageAction, Option.ite_none_left_eq_some, Option.some.injEq] at acts
      rcases acts with ⟨_, rfl⟩
      contradiction
  | invalidate =>
      rw [← Option.some.inj acts] at isTarget
      contradiction
  | push | run | operate | disable | fire | deliver => contradiction

/-- The asynchronous pool lends its cells. -/
def lending : Lending (system V IoContext) storageSimulation where
  handles w := w.handles
  names := Event.names
  Known w := w.Accounted ∧ w.Owned
  preserved := by
    rintro w event after ⟨accounted, owned⟩ stepped
    have effect := (stepped_of_step stepped).2
    exact ⟨accounted.step effect, owned.step accounted effect⟩
  owners := by
    rintro w ⟨_, owned⟩ cell
    change w.handles.cells.count cell ≤ w.impl.storage.used.count cell
    rw [owned.counts cell]
    exact Nat.le_add_right _ _
  spared := by
    intro w event after _ stepped handle spared
    exact (stepped_of_step stepped).2.spared spared
  named := by
    rintro w event action ⟨_, owned⟩ acts cell isTarget
    exact owned.named acts isTarget

omit [DecidableEq IoContext] in
/-- A value which was reset through a handle is in the cell of the handle. -/
theorem Stepped.reads_reset {w after : World V IoContext} {handle : HandleId} {value : V}
    {now : TimePoint} {ready : Handle Unit} {cell : CellId}
    (stepped : w.Stepped (.reset handle value now) after) (owned : after.Owned)
    (found : w.handles.lookup handle = some ⟨ready, none⟩)
    (holds : ready.resourceIt = some (.node cell)) :
    after.handles.lookup handle = some ⟨ready, none⟩ ∧
      after.impl.storage.getThrough ready = some (.ok value) := by
  cases stepped with
  | stored isReady isHeld used =>
      obtain rfl : ready = _ := by simpa [found] using isReady
      obtain rfl : cell = _ := by simpa [holds] using isHeld
      exact ⟨found, w.impl.storage.getThrough_store holds value now⟩
  | storedOutside => exact absurd owned.isDefined (by simp [goWrong])
  | threw isReady unusable =>
      obtain rfl : ready = _ := by simpa [found] using isReady
      rw [holds] at unusable
      contradiction

end Async.World

namespace Sync.World

variable {V : Type}

theorem Stepped.spared {w after : World V} {event : Event V} (stepped : w.Stepped event after)
    {handle : HandleId} (spared : handle ∉ event.names) :
    after.handles.lookup handle = w.handles.lookup handle := by
  cases stepped with
  | leased looks | refused looks =>
      cases looks <;> exact AList.lookup_insert_ne (by simpa [Event.names] using spared)
  | timedOut | tookBack => exact AList.lookup_insert_ne (by simpa [Event.names] using spared)
  | operated acted => exact acted.lookup spared
  | _ => rfl

theorem Held.named {w : World V} (held : w.Held) {event : Event V} {action : StorageAction V}
    (acts : w.storageAction event = some action) {cell : CellId}
    (isTarget : action.target = some cell) : ∃ handle ∈ event.names, ∃ holder,
      w.handles.lookup handle = some holder ∧ holder.cell = some cell := by
  cases event with
  | reset handle value now =>
      simp only [storageAction] at acts
      split at acts
      · next _ _ own found =>
          rw [Option.ite_none_right_eq_some, Option.some.injEq] at acts
          rcases acts with ⟨_, rfl⟩
          exact ⟨handle, List.mem_singleton_self handle, _, found, isTarget⟩
      · contradiction
  | finish handle now notified =>
      simp only [storageAction] at acts
      split at acts
      · next returning strategy own found =>
          rw [Option.ite_none_right_eq_some] at acts
          have same : own = cell := by
            rcases acts with ⟨_, acts⟩
            cases strategy <;> rcases Option.some.inj acts with rfl <;>
            exact Option.some.inj isTarget
          rcases (held.attached _ _ found).of_call with ⟨_, _, holds⟩
          refine ⟨handle, List.mem_singleton_self handle, _, found, ?_⟩
          rw [HandleState.cell, holds, ← same]
          rfl
      · contradiction
  | get =>
      simp only [storageAction, Option.ite_none_left_eq_some, Option.some.injEq] at acts
      rcases acts with ⟨_, rfl⟩
      contradiction
  | wake waiter handle status now =>
      cases status with
      | noTimeout =>
          simp only [storageAction, Option.ite_none_left_eq_some, Option.some.injEq] at acts
          rcases acts with ⟨_, rfl⟩
          contradiction
      | timeout => contradiction
  | invalidate =>
      rw [← Option.some.inj acts] at isTarget
      contradiction
  | operate | disable => contradiction

/-- The synchronous pool lends its cells. -/
def lending : Lending (system V) storageSimulation where
  handles w := w.handles
  names := Event.names
  Known w := w.Held
  preserved := fun _ _ _ held stepped => held.step (stepped_of_step stepped).2
  owners := fun _ held cell => (held.owners cell).ge
  spared := fun _ _ _ _ stepped _ spared => (stepped_of_step stepped).2.spared spared
  named := fun _ _ _ held acts _ isTarget => held.named acts isTarget

/-- A value which was reset through a handle is in the cell of the handle. -/
theorem Stepped.reads_reset {w after : World V} {handle : HandleId} {value : V}
    {now : TimePoint} {ready : Handle Unit} {cell : CellId}
    (stepped : w.Stepped (.reset handle value now) after) (held : w.Held)
    (found : w.handles.lookup handle = some ⟨ready, none⟩)
    (holds : ready.resourceIt = some (.node cell)) :
    after.handles.lookup handle = some ⟨ready, none⟩ ∧
      after.impl.storage.getThrough ready = some (.ok value) := by
  cases stepped with
  | stored isReady isHeld used =>
      obtain rfl : ready = _ := by simpa [found] using isReady
      obtain rfl : cell = _ := by simpa [holds] using isHeld
      exact ⟨found, w.impl.storage.getThrough_store holds value now⟩
  | storedOutside isReady isHeld outside =>
      obtain rfl : ready = _ := by simpa [found] using isReady
      have isCell : HandleState.cell ⟨ready, none⟩ = some cell := by
        rw [HandleState.cell, holds]
        rfl
      have used := held.used_of_lookup found isCell
      obtain rfl := Option.some.inj (isHeld.symm.trans holds)
      exact absurd used (outside cell rfl)
  | threw isReady unusable =>
      obtain rfl : ready = _ := by simpa [found] using isReady
      rw [holds] at unusable
      contradiction
  | leased looks | refused looks | blocked looks => cases looks

end Sync.World

/--
As long as a client does not use its handle, the handle stays as it is, and `get` and `empty`
find in its cell what they find there now, whatever happens to the pool and to other handles;
what a client stores through its handle it finds there again.
-/
theorem handle_is_exclusive (V IoContext : Type) [DecidableEq IoContext] :
    (∀ (w : Async.World V IoContext) handle ready cell,
      (Async.World.system V IoContext).Reachable w →
      w.handles.lookup handle = some ⟨ready, none⟩ → ready.resourceIt = some (.node cell) →
      (∀ final, (Async.World.system V IoContext).LeadsTo
          (fun _ event => handle ∉ event.names) w final →
        final.handles.lookup handle = some ⟨ready, none⟩ ∧
          final.impl.storage.getThrough ready = w.impl.storage.getThrough ready ∧
          final.impl.storage.emptyThrough ready = w.impl.storage.emptyThrough ready) ∧
      ∀ value now after final, w.step (.reset handle value now) = some after →
        (Async.World.system V IoContext).LeadsTo
          (fun _ event => handle ∉ event.names) after final →
        final.impl.storage.getThrough ready = some (.ok value)) ∧
    ∀ (w : Sync.World V) handle ready cell, (Sync.World.system V).Reachable w →
      w.handles.lookup handle = some ⟨ready, none⟩ → ready.resourceIt = some (.node cell) →
      (∀ final, (Sync.World.system V).LeadsTo (fun _ event => handle ∉ event.names) w final →
        final.handles.lookup handle = some ⟨ready, none⟩ ∧
          final.impl.storage.getThrough ready = w.impl.storage.getThrough ready ∧
          final.impl.storage.emptyThrough ready = w.impl.storage.emptyThrough ready) ∧
      ∀ value now after final, w.step (.reset handle value now) = some after →
        (Sync.World.system V).LeadsTo (fun _ event => handle ∉ event.names) after final →
        final.impl.storage.getThrough ready = some (.ok value) := by
  constructor
  · intro w handle ready cell reached found holds
    have known := And.intro (Async.World.accounted_of_reachable reached)
      (Async.World.owned_of_reachable reached)
    refine ⟨fun final leads => Async.World.lending.reads_unchanged known found holds leads, ?_⟩
    intro value now after final stepped leads
    have knownAfter := Async.World.lending.preserved w _ after known stepped
    rcases (Async.World.stepped_of_step stepped).2.reads_reset knownAfter.2 found holds with
      ⟨foundAfter, reads⟩
    exact (Async.World.lending.reads_unchanged knownAfter foundAfter holds leads).2.1.trans reads
  · intro w handle ready cell reached found holds
    have held := Sync.World.held_of_reachable reached
    refine ⟨fun final leads => Sync.World.lending.reads_unchanged held found holds leads, ?_⟩
    intro value now after final stepped leads
    have heldAfter := Sync.World.lending.preserved w _ after held stepped
    rcases (Sync.World.stepped_of_step stepped).2.reads_reset held found holds with
      ⟨foundAfter, reads⟩
    exact (Sync.World.lending.reads_unchanged heldAfter foundAfter holds leads).2.1.trans reads

/-- The client of handle 0 stores a value. -/
def storingRun : List (Async.Event ℕ Bool) :=
  [.get false .recycle Ticks.zero (Ticks.clamp 10), .run 0 0, .reset 0 7 (Ticks.clamp 11)]

/-- What others do in the meantime. -/
def othersRun : List (Async.Event ℕ Bool) :=
  [.invalidate, .get true .waste (Ticks.clamp 5) (Ticks.clamp 12), .push 0 (Ticks.clamp 12),
    .disable, .run 0 1, .operate (.destroy 1)]

theorem handle_is_exclusive_invalidated :
    ∃ w final, (Async.World.system ℕ Bool).execute Async.World.oneCell storingRun = some w ∧
      (Async.World.system ℕ Bool).execute w othersRun = some final ∧
      final.impl.storage.getThrough (Handle.constructed () .recycle (.node 0)) =
        some (.ok 7) := by
  have ran : ((Async.World.system ℕ Bool).execute Async.World.oneCell storingRun).isSome := rfl
  have continued : ((Async.World.system ℕ Bool).execute
    (((Async.World.system ℕ Bool).execute Async.World.oneCell storingRun).get ran)
      othersRun).isSome := rfl
  have spared : ∀ event ∈ othersRun, 0 ∉ event.names := by decide
  have exclusive := (handle_is_exclusive ℕ Bool).1 _ 0 (Handle.constructed () .recycle (.node 0))
    0 (System.execute_reachable Async.World.oneCell_initial (Option.some_get ran).symm) rfl rfl
  refine ⟨_, _, (Option.some_get ran).symm, (Option.some_get continued).symm, ?_⟩
  refine (exclusive.1 _ (System.LeadsTo.execute (fun event member _ => spared event member)
    (Option.some_get continued).symm)).2.1.trans rfl

end ResourcePool
