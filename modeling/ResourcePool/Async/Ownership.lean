import ResourcePool.Async.Completion
import ResourcePool.Container.Registry

/-!
# Every cell has one owner

A used cell is held by a handle, is on its way back in a call which a handle is in, or is
carried by a submitted completion. `Owned` says that the used list is made up of just the
cells found there. A step gives a cell to one owner exactly when another one loses it, so
no cell is ever found twice, and what is given back is always a used cell.
-/

namespace ResourcePool

open Container

theorem Storage.handOn_lists {V : Type} (s : Storage V) (strategy : Strategy) (cell : CellId)
    (now : TimePoint) :
    (s.handOn strategy cell now).cells = s.cells ∧
      (s.handOn strategy cell now).used = s.used := by
  cases strategy with
  | recycle =>
      simp only [handOn, Storage.handOver]
      split
      · exact ⟨rfl, rfl⟩
      · exact ⟨rfl, rfl⟩
  | waste => exact ⟨rfl, rfl⟩

namespace Async

variable {V IoContext : Type}

/-- The cell which a completion carries. -/
def Submission.cell (submission : Submission Request IoContext) : Option CellId :=
  cellOf submission.task.listIterator

/-- The handle passed to a client holds the cell which the completion carried. -/
theorem onGetHandler_spec {submission : Submission Request IoContext}
    (completes : submission.Completes) (request : Request) :
    HandleState.Sound
        ⟨onGetHandler request submission.task.error submission.task.listIterator, none⟩ ∧
      HandleState.cell
        ⟨onGetHandler request submission.task.error submission.task.listIterator, none⟩ =
          submission.cell := by
  rcases completes with ⟨ok, cell, isCell⟩ | ⟨isSet, singular⟩
  · simp only [onGetHandler, ok, isCell, Error.Code.isSet_ok, Bool.false_eq_true, if_false,
      Submission.cell]
    exact ⟨Or.inr ⟨request.useStrategy, cell, rfl, Or.inl rfl⟩, rfl⟩
  · simp only [onGetHandler, isSet, singular, if_true, Submission.cell]
    exact ⟨Or.inl ⟨rfl, rfl⟩, rfl⟩

namespace World

variable [DecidableEq IoContext]

/-- The cells which submitted completions carry. -/
def carried (w : World V IoContext) : List CellId := w.submitted.filterMap Submission.cell

/-- The used cells are those of the handles and of the submitted completions. -/
structure Owned (w : World V IoContext) : Prop where
  isDefined : w.undefined = false
  cells : w.impl.storage.cells.Perm (List.range w.impl.capacity)
  owners : w.impl.storage.used.Perm (w.handles.cells ++ w.carried)
  sound : w.handles.Sound

omit [DecidableEq IoContext] in
theorem Owned.counts {w : World V IoContext} (owned : w.Owned) (cell : CellId) :
    w.impl.storage.used.count cell = w.handles.cells.count cell + w.carried.count cell := by
  rw [owned.owners.count_eq, List.count_append]

omit [DecidableEq IoContext] in
theorem Owned.used_of_lookup {w : World V IoContext} (owned : w.Owned) {handle : HandleId}
    {state : HandleState} {cell : CellId} (found : w.handles.lookup handle = some state)
    (holds : state.cell = some cell) : cell ∈ w.impl.storage.used :=
  owned.owners.mem_iff.mpr (List.mem_append_left _ (Handles.mem_cells found holds))

omit [DecidableEq IoContext] in
theorem owners_of_counts {w : World V IoContext}
    (counts : ∀ cell, w.impl.storage.used.count cell =
      w.handles.cells.count cell + w.carried.count cell) :
    w.impl.storage.used.Perm (w.handles.cells ++ w.carried) := by
  rw [List.perm_iff_count]
  intro cell
  rw [counts, List.count_append]

omit [DecidableEq IoContext] in
theorem Owned.submit {w : World V IoContext} (owned : w.Owned)
    {submissions : List (Submission Request IoContext)}
    (without : ∀ submission ∈ submissions, submission.cell = none) :
    (w.submit submissions).Owned where
  isDefined := owned.isDefined
  cells := owned.cells
  owners := by
    have nothing : submissions.filterMap Submission.cell = [] :=
      List.filterMap_eq_nil_iff.mpr without
    have same : (w.submit submissions).carried = w.carried := by
      simp [carried, World.submit, nothing]
    rw [same]
    exact owned.owners
  sound := owned.sound

omit [DecidableEq IoContext] in
/-- The step of a request or a timer, which touches neither cells nor handles. -/
theorem Owned.same {w before : World V IoContext} (owned : before.Owned)
    (isDefined : w.undefined = before.undefined)
    (cells : w.impl.storage.cells.Perm before.impl.storage.cells)
    (capacity : w.impl.capacity = before.impl.capacity)
    (used : w.impl.storage.used = before.impl.storage.used)
    (handles : w.handles = before.handles) (submitted : w.submitted = before.submitted) :
    w.Owned where
  isDefined := isDefined.trans owned.isDefined
  cells := by
    rw [capacity]
    exact cells.trans owned.cells
  owners := by
    simp only [carried, used, handles, submitted]
    exact owned.owners
  sound := by
    rw [handles]
    exact owned.sound

omit [DecidableEq IoContext] in
/-- Every step keeps the owners of the used cells. -/
theorem Owned.step {w after : World V IoContext} {event : Event V IoContext}
    (owned : w.Owned) (accounted : w.Accounted) (stepped : w.Stepped event after) :
    after.Owned := by
  cases stepped with
  | @leased ioContext useStrategy _ now cell active isLeased =>
      refine ⟨owned.isDefined, (w.impl.storage.toLists.lease_perm now).trans owned.cells,
        owners_of_counts fun other => ?_, owned.sound⟩
      have := owned.counts other
      simp only [World.submit, Storage.lease_some isLeased, carried,
        List.filterMap_append, List.count_append, Submission.cell, Task.listIterator, cellOf,
        List.filterMap_cons, List.filterMap_nil] at this ⊢
      omega
  | @refused ioContext _ _ _ error isSet reason =>
      have issued : { w with issued := w.issued ++ [ioContext] }.Owned :=
        owned.same rfl (List.Perm.refl _) rfl rfl rfl rfl
      exact issued.submit (by simp [Submission.cell, Task.listIterator, cellOf])
  | @overflowed index _ get isGet full =>
      have taken : { w with unlocked := w.unlocked.eraseIdx index }.Owned :=
        owned.same rfl (List.Perm.refl _) rfl rfl rfl rfl
      exact taken.submit (by simp [Submission.cell, Task.listIterator, cellOf])
  | unlocked | queued | fired | stored | threw =>
      exact owned.same rfl (List.Perm.refl _) rfl rfl rfl rfl
  | @ran index handle submission request isNew isSubmitted isRequest =>
      have inLog : submission ∈ w.log :=
        accounted.log.mem_iff.mpr (List.mem_append_left _ (List.mem_of_getElem? isSubmitted))
      rcases onGetHandler_spec (accounted.completes submission inLog) request with ⟨sound, cell⟩
      refine ⟨owned.isDefined, owned.cells, owners_of_counts fun other => ?_,
        owned.sound.insert sound⟩
      have newOwner := count_held_insert HandleState.cell
        ⟨onGetHandler request submission.task.error submission.task.listIterator, none⟩
        isNew other
      have split := ((perm_cons_eraseIdx isSubmitted).filterMap Submission.cell).count_eq other
      have := owned.counts other
      rw [cell] at newOwner
      simp only [World.setHandle, Handles.cells, carried, newOwner] at *
      cases isCell : submission.cell <;>
        simp only [isCell, List.filterMap_cons, Option.toList, List.count_nil, List.count_cons]
          at * <;> omega
  | @ranMovedFrom index handle submission isSubmitted isMovedFrom =>
      have isKey : submission.key ∈ w.keys := by
        apply List.mem_append_right _ (List.mem_map_of_mem ?_)
        exact accounted.log.mem_iff.mpr
          (List.mem_append_left _ (List.mem_of_getElem? isSubmitted))
      rcases accounted.mem_keys isKey with ⟨id, same, _⟩
      simp [Submission.key, isMovedFrom] at same
  | @operated event handles acted =>
      refine ⟨owned.isDefined, owned.cells, owners_of_counts fun other => ?_,
        acted.sound owned.sound⟩
      rw [acted.count_cells]
      exact owned.counts other
  | storedOutside isReady holds outside =>
      rcases (owned.sound _ _ isReady).of_resourceIt holds with ⟨_, cell, rfl, rfl⟩
      exact absurd (owned.used_of_lookup isReady rfl) (outside cell rfl)
  | @tookBack handle now returning strategy cell inCall used nothingQueued =>
      rcases (owned.sound _ _ inCall).of_call with ⟨_, _, same, holds⟩
      obtain ⟨-, rfl⟩ : strategy = _ ∧ cell = _ := by simpa using same
      refine ⟨owned.isDefined,
        (w.impl.storage.takeBack_cells_perm strategy used now).trans owned.cells,
        owners_of_counts fun other => ?_,
        owned.sound.insert (HandleState.sound_returned returning)⟩
      have emptied := (Handles.cells_perm_returned inCall holds).count_eq other
      have := owned.counts other
      simp only [World.setHandle, carried, Storage.takeBack_used, List.count_erase,
        List.count_cons] at *
      omega
  | @handedOn handle now returning strategy cell oldest callbacks inCall used front capacity =>
      rcases (owned.sound _ _ inCall).of_call with ⟨_, _, same, holds⟩
      obtain ⟨-, rfl⟩ : strategy = _ ∧ cell = _ := by simpa using same
      rcases w.impl.storage.handOn_lists strategy cell now with ⟨sameCells, sameUsed⟩
      refine ⟨owned.isDefined, (List.Perm.of_eq sameCells).trans owned.cells,
        owners_of_counts fun other => ?_,
        owned.sound.insert (HandleState.sound_returned returning)⟩
      have emptied := (Handles.cells_perm_returned inCall holds).count_eq other
      have := owned.counts other
      simp only [World.setHandle, World.submit, carried, sameUsed, Submission.cell,
        Task.listIterator, cellOf, List.filterMap_append, List.filterMap_cons,
        List.filterMap_nil, List.count_append, List.count_cons, List.count_nil] at *
      omega
  | finishedOutside inCall outside =>
      rcases (owned.sound _ _ inCall).of_call with ⟨strategy, cell, rfl, holds⟩
      exact absurd (owned.used_of_lookup inCall holds) (outside strategy cell rfl)
  | invalidated =>
      exact owned.same rfl w.impl.storage.toLists.invalidate_perm rfl rfl rfl rfl
  | @disabled callbacks emptied capacity =>
      have drained : { w with
          impl := { w.impl with callbacks := callbacks, disabled := true } }.Owned :=
        owned.same rfl (List.Perm.refl _) rfl rfl rfl rfl
      apply drained.submit
      intro submission member
      rcases List.mem_map.mp member with ⟨pending, _, rfl⟩
      rfl
  | @delivered _ callbacks leaving submissions expired split sublist capacity =>
      have cancelled : { w with impl := { w.impl with callbacks := callbacks } }.Owned :=
        owned.same rfl (List.Perm.refl _) rfl rfl rfl rfl
      apply cancelled.submit
      intro submission member
      rcases List.mem_map.mp (expired.mem_iff.mp member) with ⟨pending, _, rfl⟩
      rfl

theorem owned_of_reachable {w : World V IoContext} (reached : (system V IoContext).Reachable w) :
    w.Owned := by
  apply Transition.System.Reachable.invariant_of (motive := fun w : World V IoContext => w.Owned)
    (fun _ => accounted_of_reachable) ?_ ?_ reached
  · rintro _ ⟨impl, isConstructed, rfl⟩
    rcases isConstructed.spec with ⟨_, _, cells, used, _, _⟩
    refine ⟨rfl, List.Perm.of_eq cells, ?_, ?_⟩
    · rw [show (initially impl).impl.storage.used = [] from used]
      exact List.Perm.refl _
    · intro handle state found
      simp [initially] at found
  · intro before event after accounted owned stepped
    exact owned.step accounted (stepped_of_step stepped).2

/--
Every cell of the pool is in just one place: free, held by a handle, carried by a
submitted completion, or on its way back in a call. Different handles hold different
cells, the calls made on the pool are for used cells, and no step is undefined.
-/
theorem each_cell_has_one_owner {w : World V IoContext}
    (reached : (system V IoContext).Reachable w) :
    (∀ cell < w.impl.capacity,
      w.impl.storage.available.count cell + w.impl.storage.wasted.count cell +
        w.handles.holding.count cell + w.carried.count cell + w.handles.returning.count cell = 1 ∧
      w.impl.storage.used.count cell =
        w.handles.holding.count cell + w.carried.count cell + w.handles.returning.count cell) ∧
    (∀ cell ∈ w.impl.storage.cells, cell < w.impl.capacity) ∧
    (∀ handle state other otherState cell, w.handles.lookup handle = some state →
      w.handles.lookup other = some otherState → state.cell = some cell →
      otherState.cell = some cell → handle = other) ∧
    (∀ handle ready, w.handles.lookup handle = some ⟨ready, none⟩ →
      ready.unusable = false → ∃ cell, ready.resourceIt = some (.node cell) ∧
        cell ∈ w.impl.storage.used) ∧
    (∀ handle returning call, w.handles.lookup handle = some ⟨returning, some call⟩ →
      ∃ strategy cell, call = ⟨some (), some strategy, .node cell⟩ ∧
        cell ∈ w.impl.storage.used) ∧
    (∀ submission ∈ w.submitted,
      submission.task.error = .ok ↔ ∃ cell, submission.cell = some cell) ∧
    w.impl.size + w.impl.storage.wasted.length = w.impl.capacity ∧
    w.undefined = false := by
  have owned := owned_of_reachable reached
  have accounted := accounted_of_reachable reached
  have noneTwice : w.handles.cells.Nodup :=
    (List.nodup_append.mp (owned.owners.nodup_iff.mp w.impl.storage.used_nodup)).1
  refine ⟨?_, ?_, ?_, ?_, ?_, ?_, ?_, owned.isDefined⟩
  · intro cell inRange
    have once : w.impl.storage.cells.count cell = 1 := by
      rw [owned.cells.count_eq]
      exact List.count_eq_one_of_mem List.nodup_range (List.mem_range.mpr inRange)
    have split := owned.counts cell
    rw [owned.sound.count_cells] at split
    simp only [Lists.cells, List.count_append] at once
    omega
  · intro cell member
    exact List.mem_range.mp (owned.cells.mem_iff.mp member)
  · intro handle state other otherState cell found otherFound holding otherHolding
    exact name_unique_of_held noneTwice found otherFound holding otherHolding
  · intro handle ready found usable
    rcases owned.sound _ _ found with ⟨nothing, _⟩ | ⟨strategy, cell, isHandle, _⟩
    · change ready.resourceIt = none at nothing
      simp [Handle.unusable, nothing] at usable
    · change ready = _ at isHandle
      subst isHandle
      exact ⟨cell, rfl, owned.used_of_lookup found rfl⟩
  · intro handle returning call found
    rcases (owned.sound _ _ found).of_call with ⟨strategy, cell, isCall, holds⟩
    exact ⟨strategy, cell, isCall, owned.used_of_lookup found holds⟩
  · intro submission member
    have inLog := accounted.log.mem_iff.mpr (List.mem_append_left _ member)
    rcases accounted.completes submission inLog with ⟨ok, cell, isCell⟩ | ⟨isSet, singular⟩
    · simp [ok, Submission.cell, isCell, cellOf]
    · have failed : submission.task.error ≠ .ok := by
        intro ok
        simp [ok] at isSet
      simp [failed, Submission.cell, singular, cellOf]
  · have length := owned.cells.length_eq
    simp only [Lists.cells, List.length_append, List.length_range] at length
    simp only [PoolImpl.size, Storage.stats]
    omega

/-- The cell on its way back while another request is queued. -/
theorem each_cell_has_one_owner_returning :
    ∃ w, (system ℕ Bool).execute oneCell (handOverRun.take 5) = some w ∧
      w.impl.storage.used.count 0 =
        w.handles.holding.count 0 + w.carried.count 0 + w.handles.returning.count 0 ∧
      w.handles.returning = [0] ∧ w.impl.callbacks.contents.length = 1 := by
  have ran : ((system ℕ Bool).execute oneCell (handOverRun.take 5)).isSome := rfl
  have reached :=
    Transition.System.execute_reachable oneCell_initial (Option.some_get ran).symm
  exact ⟨_, (Option.some_get ran).symm,
    ((each_cell_has_one_owner reached).1 0 (show 0 < 1 by decide)).2, rfl, rfl⟩

end World

end Async

end ResourcePool
