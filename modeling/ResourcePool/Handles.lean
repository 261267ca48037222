import Mathlib.Data.Fintype.EquivFin
import Mathlib.Data.List.AList
import ResourcePool.Container.Registry
import ResourcePool.Handle

/-!
# The handles of the clients

A handle is in at most one call on the pool. The call begins, as `giveBack` or `release`,
before its section runs; in between the cell is on its way. The destructor and the move
assignment of a usable handle are a `release`, the section of its call, and then `destroy`
or `moveAssign` of the handle which the call left unusable.

The operations of `Handles.act` move iterators from one handle to another and create
none: what the handles hold stays the same.
-/

namespace ResourcePool

open Container

abbrev HandleId := ℕ

/-- A handle and the call on the pool which it is in, if any. -/
structure HandleState where
  handle : Handle Unit
  call : Option (PoolCall Unit)
  deriving DecidableEq

abbrev Handles := AList fun _ : HandleId => HandleState

/-- The operations on handles which leave the pool alone, or begin a call on it. -/
inductive HandleEvent where
  | create (handle : HandleId)
  | moveConstruct (handle source : HandleId)
  | moveAssign (handle source : HandleId)
  | destroy (handle : HandleId)
  /-- `recycle` or `waste` of a handle is called. -/
  | giveBack (handle : HandleId) (strategy : Strategy)
  /-- The call with which a destructor or a move assignment begins. -/
  | release (handle : HandleId)
  deriving DecidableEq

namespace Handles

def ready? (handles : Handles) (handle : HandleId) : Option (Handle Unit) :=
  match handles.lookup handle with
  | some ⟨ready, none⟩ => some ready
  | _ => none

def act (handles : Handles) : HandleEvent → Option Handles
  | .create handle =>
      if handle ∈ handles then none
      else some (handles.insert handle ⟨Handle.unattached, none⟩)
  | .moveConstruct handle source =>
      if handle ∈ handles then none
      else
        (handles.ready? source).map fun other =>
          (handles.insert source ⟨(Handle.moveConstruct other).2, none⟩).insert handle
            ⟨(Handle.moveConstruct other).1, none⟩
  | .moveAssign handle source =>
      match handles.ready? handle, handles.ready? source with
      | some target, some other =>
          if target.unusable then
            if handle = source then
              some (handles.insert handle ⟨target.movedFrom, none⟩)
            else
              some ((handles.insert source ⟨(Handle.moveAssign target other).2, none⟩).insert
                handle ⟨(Handle.moveAssign target other).1, none⟩)
          else none
      | _, _ => none
  | .destroy handle =>
      match handles.ready? handle with
      | none => none
      | some ready => if ready.unusable then some (handles.erase handle) else none
  | .giveBack handle strategy =>
      match handles.ready? handle with
      | none => none
      | some ready =>
          match ready.giveBack strategy with
          | .error _ => some handles
          | .ok call => some (handles.insert handle ⟨ready, some call⟩)
  | .release handle =>
      match handles.ready? handle with
      | none => none
      | some ready => ready.ownCall.map fun call => handles.insert handle ⟨ready, some call⟩

/-- What an operation does, by its kinds of effect. -/
inductive Acted (handles : Handles) : HandleEvent → Handles → Prop where
  | created {handle : HandleId} (isNew : handle ∉ handles) :
      Acted handles (.create handle) (handles.insert handle ⟨Handle.unattached, none⟩)
  | moveConstructed {handle source : HandleId} {other : Handle Unit} (isNew : handle ∉ handles)
      (isReady : handles.lookup source = some ⟨other, none⟩) :
      Acted handles (.moveConstruct handle source)
        ((handles.insert source ⟨other.movedFrom, none⟩).insert handle ⟨other, none⟩)
  | moveAssigned {handle source : HandleId} {target other : Handle Unit}
      (isTarget : handles.lookup handle = some ⟨target, none⟩)
      (unusable : target.unusable = true)
      (isReady : handles.lookup source = some ⟨other, none⟩) (different : handle ≠ source) :
      Acted handles (.moveAssign handle source)
        ((handles.insert source ⟨other.movedFrom, none⟩).insert handle ⟨other, none⟩)
  | selfAssigned {handle : HandleId} {target : Handle Unit}
      (isTarget : handles.lookup handle = some ⟨target, none⟩)
      (unusable : target.unusable = true) :
      Acted handles (.moveAssign handle handle) (handles.insert handle ⟨target.movedFrom, none⟩)
  | destroyed {handle : HandleId} {ready : Handle Unit}
      (isReady : handles.lookup handle = some ⟨ready, none⟩) (unusable : ready.unusable = true) :
      Acted handles (.destroy handle) (handles.erase handle)
  | threw {handle : HandleId} {strategy : Strategy} {ready : Handle Unit}
      (isReady : handles.lookup handle = some ⟨ready, none⟩)
      (unusable : ready.resourceIt = none) : Acted handles (.giveBack handle strategy) handles
  | called {event : HandleEvent} {handle : HandleId} {ready : Handle Unit}
      {strategy : Option Strategy} {resourceIt : CellIterator}
      (calls : (∃ requested, event = .giveBack handle requested ∧ strategy = some requested) ∨
        event = .release handle ∧ strategy = ready.useStrategy)
      (isReady : handles.lookup handle = some ⟨ready, none⟩)
      (holds : ready.resourceIt = some resourceIt) :
      Acted handles event
        (handles.insert handle ⟨ready, some ⟨ready.poolImpl, strategy, resourceIt⟩⟩)

theorem ready?_eq_some {handles : Handles} {handle : HandleId} {ready : Handle Unit} :
    handles.ready? handle = some ready ↔ handles.lookup handle = some ⟨ready, none⟩ := by
  simp only [ready?]
  split
  · next other found => simp [found]
  · next notReady =>
      constructor
      · intro impossible
        contradiction
      · intro found
        exact absurd found (notReady ready)

theorem acted_of_act {handles after : Handles} {event : HandleEvent}
    (acted : handles.act event = some after) : handles.Acted event after := by
  cases event with
  | create handle =>
      simp only [act, Option.ite_none_left_eq_some, Option.some.injEq] at acted
      rcases acted with ⟨isNew, rfl⟩
      exact .created isNew
  | moveConstruct handle source =>
      simp only [act, Option.ite_none_left_eq_some, Option.map_eq_some_iff] at acted
      rcases acted with ⟨isNew, other, isReady, rfl⟩
      exact .moveConstructed isNew (ready?_eq_some.mp isReady)
  | moveAssign handle source =>
      simp only [act] at acted
      split at acted
      · next target other isTarget isReady =>
          rw [ready?_eq_some] at isTarget isReady
          split at acted
          · next unusable =>
              split at acted <;> simp only [Option.some.injEq] at acted <;> subst acted
              · next same =>
                  subst same
                  exact .selfAssigned isTarget unusable
              · next different => exact .moveAssigned isTarget unusable isReady different
          · contradiction
      · contradiction
  | destroy handle =>
      simp only [act] at acted
      split at acted
      · contradiction
      · next ready isReady =>
          simp only [Option.ite_none_right_eq_some, Option.some.injEq] at acted
          rcases acted with ⟨unusable, rfl⟩
          exact .destroyed (ready?_eq_some.mp isReady) unusable
  | giveBack handle strategy =>
      simp only [act] at acted
      split at acted
      · contradiction
      · next ready isReady =>
          rw [ready?_eq_some] at isReady
          cases isResource : ready.resourceIt with
          | none =>
              simp only [Handle.giveBack, isResource, Option.some.injEq] at acted
              subst acted
              exact .threw isReady isResource
          | some resourceIt =>
              simp only [Handle.giveBack, isResource, Option.some.injEq] at acted
              subst acted
              exact .called (Or.inl ⟨strategy, rfl, rfl⟩) isReady isResource
  | release handle =>
      simp only [act] at acted
      split at acted
      · contradiction
      · next ready isReady =>
          simp only [Handle.ownCall, Option.map_map, Option.map_eq_some_iff] at acted
          rcases acted with ⟨resourceIt, holds, rfl⟩
          exact .called (Or.inr ⟨rfl, rfl⟩) (ready?_eq_some.mp isReady) holds

end Handles

/-! ### What the handles hold -/

def cellOf : CellIterator → Option CellId
  | .singular => none
  | .node cell => some cell

namespace HandleState

/-- The cell which a handle holds, or which it is giving back. -/
def cell (state : HandleState) : Option CellId :=
  state.handle.resourceIt.bind cellOf

/-- The cell of a handle which is in no call. -/
def holds (state : HandleState) : Option CellId :=
  if state.call.isNone then state.cell else none

/-- The cell which the call of a handle gives back. -/
def returns (state : HandleState) : Option CellId :=
  state.call.bind fun call => cellOf call.resourceIt

/-- A usable handle has a pool, a strategy and a cell, and is at most in a call which
gives this cell back. -/
def Sound (state : HandleState) : Prop :=
  (state.handle.resourceIt = none ∧ state.call = none) ∨
    ∃ strategy cell, state.handle = ⟨some (), some strategy, some (.node cell)⟩ ∧
      (state.call = none ∨
        ∃ requested, state.call = some ⟨some (), some requested, .node cell⟩)

theorem sound_unattached : Sound ⟨Handle.unattached, none⟩ := Or.inl ⟨rfl, rfl⟩

theorem sound_movedFrom (handle : Handle Unit) : Sound ⟨handle.movedFrom, none⟩ :=
  Or.inl ⟨rfl, rfl⟩

theorem sound_returned (handle : Handle Unit) : Sound ⟨handle.returned, none⟩ :=
  Or.inl ⟨rfl, rfl⟩

/-- What is found through the iterator of a handle. -/
def through {Resource : Type} (found : CellIterator → Option Resource) (state : HandleState) :
    Option Resource :=
  state.handle.resourceIt.bind found

section Through

variable {Resource : Type} {found : CellIterator → Option Resource}

@[simp]
theorem through_unattached : through found ⟨Handle.unattached, none⟩ = none := rfl

@[simp]
theorem through_movedFrom (handle : Handle Unit) :
    through found ⟨handle.movedFrom, none⟩ = none := rfl

theorem through_of_unusable {handle : Handle Unit} {call : Option (PoolCall Unit)}
    (unusable : handle.unusable = true) : through found ⟨handle, call⟩ = none := by
  have nothing : handle.resourceIt = none := by simpa [Handle.unusable] using unusable
  simp [through, nothing]

end Through

theorem Sound.of_resourceIt {handle : Handle Unit} {call : Option (PoolCall Unit)}
    {resourceIt : CellIterator} (sound : Sound ⟨handle, call⟩)
    (holds : handle.resourceIt = some resourceIt) :
    ∃ strategy cell, handle = ⟨some (), some strategy, some (.node cell)⟩ ∧
      resourceIt = .node cell := by
  rcases sound with ⟨none, _⟩ | ⟨strategy, cell, isHandle, _⟩
  · rw [holds] at none
    contradiction
  · change handle = _ at isHandle
    subst isHandle
    exact ⟨strategy, cell, rfl, (Option.some.inj holds).symm⟩

theorem Sound.of_call {handle : Handle Unit} {call : PoolCall Unit}
    (sound : Sound ⟨handle, some call⟩) :
    ∃ strategy cell, call = ⟨some (), some strategy, .node cell⟩ ∧
      HandleState.cell ⟨handle, some call⟩ = some cell := by
  rcases sound with ⟨_, none⟩ | ⟨_, cell, isHandle, none | ⟨requested, isCall⟩⟩
  · contradiction
  · contradiction
  · change handle = _ at isHandle
    subst isHandle
    exact ⟨requested, cell, Option.some.inj isCall, rfl⟩

/-- A handle holds its cell until it is in a call, which then gives this cell back. -/
theorem Sound.count_cell {state : HandleState} (sound : state.Sound) (cell : CellId) :
    state.cell.toList.count cell =
      state.holds.toList.count cell + state.returns.toList.count cell := by
  rcases state with ⟨handle, call⟩
  rcases sound with ⟨nothing, noCall⟩ | ⟨_, own, isHandle, noCall | ⟨requested, isCall⟩⟩
  · change call = none at noCall
    simp [holds, returns, noCall]
  · change call = none at noCall
    simp [holds, returns, noCall]
  · change handle = _ at isHandle
    change call = _ at isCall
    simp [HandleState.cell, holds, returns, isHandle, isCall]

end HandleState

namespace Handles

def cells (handles : Handles) : List CellId := held HandleState.cell handles

def holding (handles : Handles) : List CellId := held HandleState.holds handles

def returning (handles : Handles) : List CellId := held HandleState.returns handles

theorem mem_cells {handles : Handles} {handle : HandleId} {state : HandleState} {cell : CellId}
    (found : handles.lookup handle = some state) (holds : state.cell = some cell) :
    cell ∈ handles.cells :=
  mem_held found holds

def Sound (handles : Handles) : Prop :=
  ∀ handle state, handles.lookup handle = some state → state.Sound

theorem Sound.insert {handles : Handles} (sound : handles.Sound) {handle : HandleId}
    {state : HandleState} (isSound : state.Sound) : Sound (handles.insert handle state) :=
  fun _ _ => forall_insert isSound sound

theorem Sound.erase {handles : Handles} (sound : handles.Sound) (handle : HandleId) :
    Sound (handles.erase handle) := by
  intro other state found
  by_cases equal : other = handle
  · subst equal
    rw [AList.lookup_erase] at found
    contradiction
  · rw [AList.lookup_erase_ne equal] at found
    exact sound other state found

theorem Sound.count_cells {handles : Handles} (sound : handles.Sound) (cell : CellId) :
    handles.cells.count cell = handles.holding.count cell + handles.returning.count cell :=
  count_held_split (fun handle state found => (sound handle state found).count_cell) cell

theorem Acted.sound {handles after : Handles} {event : HandleEvent} (sound : handles.Sound)
    (acted : handles.Acted event after) : after.Sound := by
  cases acted with
  | created => exact sound.insert HandleState.sound_unattached
  | moveConstructed isNew isReady =>
      exact (sound.insert (HandleState.sound_movedFrom _)).insert (sound _ _ isReady)
  | moveAssigned isTarget unusable isReady =>
      exact (sound.insert (HandleState.sound_movedFrom _)).insert (sound _ _ isReady)
  | selfAssigned => exact sound.insert (HandleState.sound_movedFrom _)
  | destroyed => exact sound.erase _
  | threw => exact sound
  | called calls isReady holds =>
      rcases (sound _ _ isReady).of_resourceIt holds with ⟨own, cell, rfl, rfl⟩
      apply sound.insert
      rcases calls with ⟨requested, _, rfl⟩ | ⟨_, rfl⟩
      · exact Or.inr ⟨own, cell, rfl, Or.inr ⟨requested, rfl⟩⟩
      · exact Or.inr ⟨own, cell, rfl, Or.inr ⟨own, rfl⟩⟩

/-- Operations on handles move what is found through an iterator, and neither lose nor copy
it. -/
theorem Acted.count_held {Resource : Type} [DecidableEq Resource]
    (found : CellIterator → Option Resource) {handles after : Handles} {event : HandleEvent}
    (acted : handles.Acted event after) (resource : Resource) :
    (held (HandleState.through found) after).count resource =
      (held (HandleState.through found) handles).count resource := by
  cases acted with
  | created isNew =>
      have newOwner := count_held_insert (HandleState.through found)
        ⟨Handle.unattached, none⟩ isNew resource
      simpa using newOwner
  | @moveConstructed handle source other isNew isReady =>
      exact count_held_move isNew isReady (HandleState.through_movedFrom other) resource
  | @moveAssigned handle source target other isTarget unusable isReady different =>
      have emptied : HandleState.through found ⟨other.movedFrom, none⟩ = none :=
        HandleState.through_movedFrom other
      have moved := count_held_moveOver isTarget isReady different emptied resource
      rw [HandleState.through_of_unusable unusable] at moved
      simpa using moved
  | @selfAssigned handle target isTarget unusable =>
      have emptied := count_held_replace (HandleState.through found)
        ⟨target.movedFrom, none⟩ isTarget resource
      rw [HandleState.through_of_unusable unusable] at emptied
      simpa using emptied
  | destroyed isReady unusable =>
      have removed := count_held_erase (HandleState.through found) isReady resource
      rw [HandleState.through_of_unusable unusable] at removed
      simpa using removed
  | threw => rfl
  | @called _ handle ready strategy resourceIt calls isReady holds =>
      have sameOwner := count_held_replace (HandleState.through found)
        ⟨ready, some ⟨ready.poolImpl, strategy, resourceIt⟩⟩ isReady resource
      simp only [HandleState.through] at *
      omega

/-- Operations on handles move cells and neither lose nor copy one. -/
theorem Acted.count_cells {handles after : Handles} {event : HandleEvent}
    (acted : handles.Acted event after) (cell : CellId) :
    after.cells.count cell = handles.cells.count cell :=
  acted.count_held cellOf cell

theorem exists_new (handles : Handles) : ∃ handle, handle ∉ handles := by
  rcases Infinite.exists_notMem_finset handles.keys.toFinset with ⟨handle, isNew⟩
  exact ⟨handle, fun isOld => isNew (List.mem_toFinset.mpr (AList.mem_keys.mp isOld))⟩

theorem cells_perm_returned {handles : Handles} {handle : HandleId} {returning : Handle Unit}
    {call : PoolCall Unit} {cell : CellId}
    (inCall : handles.lookup handle = some ⟨returning, some call⟩)
    (holds : HandleState.cell ⟨returning, some call⟩ = some cell) :
    handles.cells.Perm (cell :: cells (handles.insert handle ⟨returning.returned, none⟩)) := by
  rw [cells, cells, held_insert]
  apply (held_perm inCall).trans
  rw [holds]
  exact List.Perm.refl _

/-- A handle whose call has come to its end gives back nothing any more. -/
theorem returning_perm_returned {handles : Handles} {handle : HandleId} {before : Handle Unit}
    {call : PoolCall Unit} {cell : CellId}
    (inCall : handles.lookup handle = some ⟨before, some call⟩)
    (gives : call.resourceIt = .node cell) :
    handles.returning.Perm
      (cell :: returning (handles.insert handle ⟨before.returned, none⟩)) := by
  rw [returning, returning, held_insert]
  apply (held_perm inCall).trans
  rw [HandleState.returns, Option.bind_some, gives]
  exact List.Perm.refl _

/-- An operation which leaves a handle in no call adds nothing to what is given back. -/
theorem returning_insert_ready {handles : Handles} (nobody : handles.returning = [])
    (handle : HandleId) (ready : Handle Unit) :
    returning (handles.insert handle ⟨ready, none⟩) = [] := by
  rw [returning, held_insert]
  exact List.eq_nil_of_sublist_nil (nobody ▸ held_erase_sublist HandleState.returns)

/-- If no cell is being given back, no handle is in a call. -/
theorem Sound.call_of_returning {handles : Handles} (sound : handles.Sound)
    (nobody : handles.returning = []) {handle : HandleId} {state : HandleState}
    (found : handles.lookup handle = some state) : state.call = none := by
  rcases state with ⟨ready, call⟩
  cases call with
  | none => rfl
  | some call =>
      rcases (sound _ _ found).of_call with ⟨_, cell, rfl, _⟩
      have member : cell ∈ handles.returning := mem_held found rfl
      rw [nobody] at member
      contradiction

end Handles

end ResourcePool
