import ResourcePool.Sync.Pool

/-!
# Every cell has one owner, whatever `get` returns

A used cell of the synchronous pool is held by one handle, or is on its way back in a call.
This does not depend on the calls of `get` to succeed. The handle of a failed call holds no
cell, but a singular iterator, which no operation takes from it: there are as many such
iterators as calls have failed, and the steps which go wrong are those which give one back,
or write through it.
-/

namespace ResourcePool

open Container

namespace HandleState

/-- A usable handle has a pool, a strategy and an iterator, and is at most in a call which
gives this iterator back. -/
def Attached (state : HandleState) : Prop :=
  (state.handle.resourceIt = none ∧ state.call = none) ∨
    ∃ strategy resourceIt, state.handle = ⟨some (), some strategy, some resourceIt⟩ ∧
      (state.call = none ∨
        ∃ requested, state.call = some ⟨some (), some requested, resourceIt⟩)

theorem Attached.of_call {handle : Handle Unit} {call : PoolCall Unit}
    (attached : Attached ⟨handle, some call⟩) :
    ∃ strategy, call = ⟨some (), some strategy, call.resourceIt⟩ ∧
      handle.resourceIt = some call.resourceIt := by
  rcases attached with ⟨_, none⟩ | ⟨_, resourceIt, isHandle, none | ⟨requested, isCall⟩⟩
  · contradiction
  · contradiction
  · rcases Option.some.inj isCall with rfl
    change handle = _ at isHandle
    exact ⟨requested, rfl, by rw [isHandle]⟩

/-- A handle holds its cell until it is in a call, which then gives this cell back. -/
theorem Attached.count_cell {state : HandleState} (attached : state.Attached) (cell : CellId) :
    state.cell.toList.count cell =
      state.holds.toList.count cell + state.returns.toList.count cell := by
  rcases state with ⟨handle, _ | call⟩
  · simp [holds, returns]
  · rcases attached.of_call with ⟨_, _, holding⟩
    simp [HandleState.cell, holds, returns, holding]

theorem Attached.of_resourceIt {handle : Handle Unit} {resourceIt : CellIterator}
    (attached : Attached ⟨handle, none⟩) (holds : handle.resourceIt = some resourceIt) :
    ∃ strategy, handle = ⟨some (), some strategy, some resourceIt⟩ := by
  rcases attached with ⟨nothing, _⟩ | ⟨strategy, own, isHandle, _⟩
  · rw [show handle.resourceIt = none from nothing] at holds
    contradiction
  · change handle = _ at isHandle
    rw [isHandle, Option.some.injEq] at holds
    exact ⟨strategy, holds ▸ isHandle⟩

theorem attached_movedFrom (handle : Handle Unit) : Attached ⟨handle.movedFrom, none⟩ :=
  Or.inl ⟨rfl, rfl⟩

theorem attached_returned (handle : Handle Unit) : Attached ⟨handle.returned, none⟩ :=
  Or.inl ⟨rfl, rfl⟩

end HandleState

/-- An iterator which is none to a cell. -/
def singularOf : CellIterator → Option Unit
  | .singular => some ()
  | .node _ => none

namespace Handles

def Attached (handles : Handles) : Prop :=
  ∀ handle state, handles.lookup handle = some state → state.Attached

/-- How many handles hold a singular iterator. -/
def singulars (handles : Handles) : ℕ :=
  (held (HandleState.through singularOf) handles).count ()

theorem Attached.insert {handles : Handles} (attached : handles.Attached) {handle : HandleId}
    {state : HandleState} (isAttached : state.Attached) :
    Attached (handles.insert handle state) :=
  fun _ _ => forall_insert isAttached attached

theorem Attached.count_cells {handles : Handles} (attached : handles.Attached) (cell : CellId) :
    handles.cells.count cell = handles.holding.count cell + handles.returning.count cell :=
  count_held_split (fun handle state found => (attached handle state found).count_cell) cell

theorem Acted.attached {handles after : Handles} {event : HandleEvent}
    (attached : handles.Attached) (acted : handles.Acted event after) : after.Attached := by
  cases acted with
  | created => exact attached.insert (Or.inl ⟨rfl, rfl⟩)
  | moveConstructed isNew isReady =>
      exact (attached.insert (HandleState.attached_movedFrom _)).insert (attached _ _ isReady)
  | moveAssigned isTarget unusable isReady =>
      exact (attached.insert (HandleState.attached_movedFrom _)).insert (attached _ _ isReady)
  | selfAssigned => exact attached.insert (HandleState.attached_movedFrom _)
  | @destroyed handle ready isReady unusable =>
      intro other state found
      by_cases equal : other = handle
      · subst equal
        rw [AList.lookup_erase] at found
        contradiction
      · rw [AList.lookup_erase_ne equal] at found
        exact attached other state found
  | threw => exact attached
  | @called _ handle ready strategy resourceIt calls isReady holds =>
      rcases (attached _ _ isReady).of_resourceIt holds with ⟨own, rfl⟩
      apply attached.insert
      rcases calls with ⟨requested, _, rfl⟩ | ⟨_, rfl⟩
      · exact Or.inr ⟨own, resourceIt, rfl, Or.inr ⟨requested, rfl⟩⟩
      · exact Or.inr ⟨own, resourceIt, rfl, Or.inr ⟨own, rfl⟩⟩

end Handles

namespace Sync.World

variable {V : Type}

/-- The calls of `get` which have failed. -/
def failed (w : World V) : List GetResult := w.returned.filter fun result => result.error.isSet

/-- A step writes or gives back a cell through a singular iterator. -/
def Misuses (w : World V) (event : Event V) : Prop :=
  ∃ handle state, w.handles.lookup handle = some state ∧
    state.handle.resourceIt = some .singular ∧
    ((∃ value now, event = .reset handle value now ∧ state.call = none) ∨
      ∃ now notified, event = .finish handle now notified ∧ state.call.isSome = true)

/-- The used cells are those of the handles, and the handles of failed calls hold singular
iterators. -/
structure Held (w : World V) : Prop where
  cells : w.impl.storage.cells.Perm (List.range w.impl.capacity)
  owners : ∀ cell, w.impl.storage.used.count cell = w.handles.cells.count cell
  singulars : w.handles.singulars = w.failed.length
  attached : w.handles.Attached

theorem Held.used_of_lookup {w : World V} (held : w.Held) {handle : HandleId}
    {state : HandleState} {cell : CellId} (found : w.handles.lookup handle = some state)
    (holds : state.cell = some cell) : cell ∈ w.impl.storage.used := by
  rw [← List.count_pos_iff, held.owners, List.count_pos_iff]
  exact Handles.mem_cells found holds

/-- The result of a call is passed to a client with a new handle. -/
theorem Held.returnTo {w before : World V} (held : before.Held) {handle : HandleId}
    (useStrategy : Strategy) {error : Error.Code} {resourceIt : CellIterator}
    (isNew : handle ∉ before.handles) (handles : w.handles = before.handles)
    (returned : w.returned = before.returned)
    (cells : w.impl.storage.cells.Perm before.impl.storage.cells)
    (capacity : w.impl.capacity = before.impl.capacity)
    (used : w.impl.storage.used = before.impl.storage.used ++ (cellOf resourceIt).toList)
    (fails : error.isSet = (singularOf resourceIt).isSome) :
    (w.returnTo handle (getHandle useStrategy error resourceIt)).Held where
  cells := by
    change w.impl.storage.cells.Perm (List.range w.impl.capacity)
    rw [capacity]
    exact cells.trans held.cells
  owners := by
    intro cell
    have newOwner := Container.count_held_insert (HandleState.through cellOf)
      ⟨(getHandle useStrategy error resourceIt).handle, none⟩ isNew cell
    change w.impl.storage.used.count cell = (Handles.cells (w.handles.insert handle _)).count cell
    rw [used, handles, List.count_append, held.owners]
    exact newOwner.symm
  singulars := by
    have newOwner := Container.count_held_insert (HandleState.through singularOf)
      ⟨(getHandle useStrategy error resourceIt).handle, none⟩ isNew ()
    have older := held.singulars
    change Handles.singulars (w.handles.insert handle _) =
      ((w.returned ++ [getHandle useStrategy error resourceIt]).filter _).length
    rw [handles, returned, List.filter_append, List.length_append]
    simp only [Handles.singulars, failed] at older ⊢
    rw [newOwner, older]
    cases resourceIt <;> simp_all [getHandle, singularOf, HandleState.through, Handle.constructed]
  attached := by
    change Handles.Attached (w.handles.insert handle _)
    rw [handles]
    exact held.attached.insert (Or.inr ⟨useStrategy, resourceIt, rfl, Or.inl rfl⟩)

theorem Held.same {w before : World V} (held : before.Held)
    (cells : w.impl.storage.cells.Perm before.impl.storage.cells)
    (capacity : w.impl.capacity = before.impl.capacity)
    (used : w.impl.storage.used = before.impl.storage.used)
    (handles : w.handles = before.handles) (returned : w.returned = before.returned) :
    w.Held where
  cells := by
    rw [capacity]
    exact cells.trans held.cells
  owners := by
    rw [used, handles]
    exact held.owners
  singulars := by
    rw [handles, failed, returned]
    exact held.singulars
  attached := by
    rw [handles]
    exact held.attached

/-- Every step keeps the owners of the cells, and of the singular iterators. -/
theorem Held.step {w after : World V} {event : Event V} (held : w.Held)
    (stepped : w.Stepped event after) : after.Held := by
  cases stepped with
  | @leased _ _ _ _ now _ cell looks isNew active isLeased =>
      exact held.returnTo _ isNew rfl rfl (w.impl.storage.toLists.lease_perm now) rfl
        (Storage.lease_some isLeased) rfl
  | refused looks isNew disabled =>
      exact held.returnTo _ isNew rfl rfl (List.Perm.refl _) rfl (List.append_nil _).symm rfl
  | timedOut isWaiter isNew =>
      exact held.returnTo _ isNew rfl rfl (List.Perm.refl _) rfl (List.append_nil _).symm rfl
  | blocked | stored | storedOutside | threw | finishedOutside | disabled =>
      exact held.same (List.Perm.refl _) rfl rfl rfl rfl
  | invalidated => exact held.same w.impl.storage.toLists.invalidate_perm rfl rfl rfl rfl
  | @operated event handles acted =>
      refine ⟨held.cells, fun cell => ?_, ?_, acted.attached held.attached⟩
      · exact (held.owners cell).trans (acted.count_cells cell).symm
      · exact (acted.count_held singularOf ()).trans held.singulars
  | @tookBack handle now notified returning strategy cell waiters inCall used notifies =>
      rcases (held.attached _ _ inCall).of_call with ⟨_, _, holds⟩
      have isCell : HandleState.cell
          ⟨returning, some ⟨some (), some strategy, .node cell⟩⟩ = some cell := by
        rw [HandleState.cell, holds]
        rfl
      refine ⟨(w.impl.storage.takeBack_cells_perm strategy used now).trans held.cells,
        fun other => ?_, ?_, held.attached.insert (HandleState.attached_returned returning)⟩
      · have emptied := (Handles.cells_perm_returned inCall isCell).count_eq other
        have := held.owners other
        simp only [Storage.takeBack_used, List.count_erase, List.count_cons] at *
        omega
      · have replaced := Container.count_held_replace (HandleState.through singularOf)
          ⟨returning.returned, none⟩ inCall ()
        have older := held.singulars
        simp only [HandleState.through, holds, Option.bind_some, singularOf,
          Option.toList_none, List.count_nil] at replaced
        exact replaced.trans older

theorem held_of_reachable {w : World V} (reached : (system V).Reachable w) : w.Held := by
  apply Transition.System.Reachable.invariant (motive := fun w : World V => w.Held) ?_ ?_ reached
  · rintro _ ⟨impl, isConstructed, rfl⟩
    rcases isConstructed.spec with ⟨_, _, cells, used, _⟩
    refine ⟨List.Perm.of_eq cells, fun cell => ?_, rfl, ?_⟩
    · rw [show (initially impl).impl.storage.used = [] from used]
      rfl
    · intro handle state found
      simp [initially] at found
  · intro before event after held stepped
    exact held.step (stepped_of_step stepped).2

/-- What goes wrong does so through a singular iterator. -/
theorem Held.misuses {w after : World V} {event : Event V} (held : w.Held)
    (isDefined : w.undefined = false) (stepped : w.Stepped event after) :
    after.undefined = true ↔ w.Misuses event := by
  constructor
  · intro undefined
    cases stepped with
    | @storedOutside handle value now ready resourceIt isReady holds outside =>
        refine ⟨handle, _, isReady, ?_, Or.inl ⟨value, now, rfl, rfl⟩⟩
        cases resourceIt with
        | singular => exact holds
        | node cell =>
            have isCell : HandleState.cell ⟨ready, none⟩ = some cell := by
              rw [HandleState.cell, holds]
              rfl
            exact absurd (held.used_of_lookup isReady isCell) (outside cell rfl)
    | @finishedOutside handle now notified returning call inCall outside =>
        refine ⟨handle, _, inCall, ?_, Or.inr ⟨now, notified, rfl, rfl⟩⟩
        rcases (held.attached _ _ inCall).of_call with ⟨strategy, isCall, holds⟩
        rw [holds]
        cases isResource : call.resourceIt with
        | singular => rfl
        | node cell =>
            rw [isResource] at isCall holds
            have isCell : HandleState.cell ⟨returning, some call⟩ = some cell := by
              rw [HandleState.cell, holds]
              rfl
            exact absurd (held.used_of_lookup inCall isCell) (outside strategy cell isCall)
    | leased | refused | blocked | timedOut | stored | threw | operated | tookBack
    | invalidated | disabled =>
        change w.undefined = true at undefined
        rw [isDefined] at undefined
        contradiction
  · rintro ⟨handle, state, found, singular, ⟨value, now, rfl, ready⟩ |
      ⟨now, notified, rfl, inCall⟩⟩
    · cases stepped with
      | storedOutside => rfl
      | stored isReady holds | threw isReady holds =>
          rw [found, Option.some.injEq] at isReady
          rw [isReady] at singular
          rw [holds] at singular
          simp at singular
      | leased looks | refused looks | blocked looks => cases looks
    · cases stepped with
      | finishedOutside => rfl
      | tookBack returns =>
          rcases (held.attached _ _ returns).of_call with ⟨_, _, holds⟩
          rw [found, Option.some.injEq] at returns
          rw [returns, holds] at singular
          simp at singular
      | leased looks | refused looks | blocked looks => cases looks

/--
Every cell of the pool is in just one place: free, held by a handle, or on its way back in
a call; `stats` counts them. Whatever the calls of `get` return, different handles hold
different cells. There are as many handles with a singular iterator as calls have failed,
and a step goes wrong just if it writes or gives back through one of these.
-/
theorem each_cell_is_held_once {w : World V} (reached : (system V).Reachable w) :
    (∀ cell < w.impl.capacity,
      w.impl.storage.available.count cell + w.impl.storage.wasted.count cell +
        w.handles.holding.count cell + w.handles.returning.count cell = 1) ∧
    (∀ cell ∈ w.impl.storage.cells, cell < w.impl.capacity) ∧
    (∀ handle state other otherState cell, w.handles.lookup handle = some state →
      w.handles.lookup other = some otherState → state.cell = some cell →
      otherState.cell = some cell → handle = other) ∧
    w.impl.stats.used = w.handles.cells.length ∧
    w.impl.stats.size + w.impl.storage.wasted.length = w.impl.capacity ∧
    w.handles.singulars = w.failed.length ∧
    ∀ event after, w.step event = some after →
      (after.undefined = true ↔ w.Misuses event) := by
  have held := held_of_reachable reached
  have owners : w.impl.storage.used.Perm w.handles.cells := List.perm_iff_count.mpr held.owners
  refine ⟨?_, ?_, ?_, owners.length_eq, ?_, held.singulars, ?_⟩
  · intro cell inRange
    have once : w.impl.storage.cells.count cell = 1 := by
      rw [held.cells.count_eq]
      exact List.count_eq_one_of_mem List.nodup_range (List.mem_range.mpr inRange)
    have split := held.owners cell
    rw [held.attached.count_cells] at split
    simp only [Lists.cells, List.count_append] at once
    omega
  · intro cell member
    exact List.mem_range.mp (held.cells.mem_iff.mp member)
  · intro handle state other otherState cell found otherFound holding otherHolding
    exact name_unique_of_held (owners.nodup_iff.mp w.impl.storage.used_nodup) found otherFound
      holding otherHolding
  · have length := held.cells.length_eq
    simp only [Lists.cells, List.length_append, List.length_range] at length
    simp only [PoolImpl.stats, Storage.stats]
    omega
  · intro event after stepped
    rcases stepped_of_step stepped with ⟨isDefined, effect⟩
    exact held.misuses isDefined effect

/-- A client holds the cell, and the handle of a call which failed is about to be destroyed. -/
def releasingRun : List (Event ℕ) :=
  [.get 0 .recycle Ticks.zero (Ticks.clamp 10), .get 1 .waste Ticks.zero (Ticks.clamp 11),
    .wake 0 1 .timeout (Ticks.clamp 12), .operate (.release 1)]

theorem each_cell_is_held_once_releasing :
    ∃ w after, (system ℕ).execute oneCell releasingRun = some w ∧
      w.handles.cells = [0] ∧ w.handles.singulars = 1 ∧ w.failed.length = 1 ∧
      w.step (.finish 1 (Ticks.clamp 13) none) = some after ∧ after.undefined = true := by
  have ran : ((system ℕ).execute oneCell releasingRun).isSome := rfl
  have once := each_cell_is_held_once
    (Transition.System.execute_reachable oneCell_initial (Option.some_get ran).symm)
  have stepped : ((((system ℕ).execute oneCell releasingRun).get ran).step
    (.finish 1 (Ticks.clamp 13) none)).isSome := rfl
  refine ⟨_, _, (Option.some_get ran).symm, rfl, once.2.2.2.2.2.1.trans rfl, rfl,
    (Option.some_get stepped).symm, ?_⟩
  refine (once.2.2.2.2.2.2 _ _ (Option.some_get stepped).symm).mpr ?_
  exact ⟨1, _, rfl, rfl, Or.inr ⟨_, _, rfl, rfl⟩⟩

end Sync.World

end ResourcePool
