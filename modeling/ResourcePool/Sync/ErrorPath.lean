import ResourcePool.Sync.Pool

/-!
# The handles of failed calls

`pool::get_handle` attaches the handle which it returns to the pool in any case, so the
handle of a call which failed is usable and holds a singular iterator. Its destructor gives
this iterator back to the storage. The callback of the asynchronous pool returns an
unattached handle instead.

As long as no call has failed the used cells are those of the handles, and everything
given back is a used cell: `ReportsRightly` holds throughout a run just if all its calls
of `get` succeed.
-/

namespace ResourcePool.Sync.World

variable {V : Type}

/-- What calls of `get` have returned is usable just if it is no error, and nothing else
than used cells was given back or written. -/
def ReportsRightly (w : World V) : Prop :=
  (∀ result ∈ w.returned, result.handle.unusable = result.error.isSet) ∧ w.undefined = false

/-- No call of `get` fails: the pool is not disabled when a call looks at it, and no wait
times out. -/
def Succeeds (w : World V) : Event V → Prop
  | .get .. => w.impl.disabled = false
  | .wake _ _ status _ => status = .noTimeout ∧ w.impl.disabled = false
  | _ => True

instance : DecidableRel (Succeeds : World V → Event V → Prop)
  | w, .get .. => inferInstanceAs (Decidable (w.impl.disabled = false))
  | w, .wake _ _ status _ =>
      inferInstanceAs (Decidable (status = .noTimeout ∧ w.impl.disabled = false))
  | _, .reset .. | _, .operate _ | _, .finish .. | _, .invalidate | _, .disable =>
      .isTrue trivial

/-- The used cells are those of the handles. -/
structure Owned (w : World V) : Prop where
  isDefined : w.undefined = false
  owners : w.impl.storage.used.Perm w.handles.cells
  sound : w.handles.Sound

theorem Owned.used_of_lookup {w : World V} (owned : w.Owned) {handle : HandleId}
    {state : HandleState} {cell : CellId} (found : w.handles.lookup handle = some state)
    (holds : state.cell = some cell) : cell ∈ w.impl.storage.used :=
  owned.owners.mem_iff.mpr (Handles.mem_cells found holds)

theorem Owned.returnTo {w : World V} (owned : w.Owned) {handle : HandleId} {cell : CellId}
    {storage : Storage V} (useStrategy : Strategy) (isNew : handle ∉ w.handles)
    (used : storage.used = w.impl.storage.used ++ [cell]) (waiters : List Waiter) :
    ({ w with
      impl := { w.impl with storage := storage }
      waiters := waiters }.returnTo handle
        (getHandle useStrategy .ok (.node cell))).Owned where
  isDefined := owned.isDefined
  owners := by
    rw [List.perm_iff_count]
    intro other
    have := owned.owners.count_eq other
    have newOwner := Container.count_held_insert HandleState.cell
      ⟨(getHandle useStrategy .ok (.node cell)).handle, none⟩ isNew other
    simp only [World.returnTo, used, Handles.cells, newOwner, List.count_append] at this ⊢
    rw [this]
    rfl
  sound := owned.sound.insert (Or.inr ⟨useStrategy, cell, rfl, Or.inl rfl⟩)

/-- While all calls have succeeded a step keeps the owners of the used cells. -/
theorem Owned.step {w after : World V} {event : Event V} (owned : w.Owned)
    (stepped : w.Stepped event after) (succeeded : ∀ result ∈ after.returned, result.error = .ok) :
    after.Owned := by
  cases stepped with
  | leased looks isNew active isLeased =>
      exact owned.returnTo _ isNew (Storage.lease_some isLeased) _
  | refused looks isNew disabled =>
      have failed := succeeded _ (List.mem_append_right _ List.mem_cons_self)
      contradiction
  | timedOut isWaiter isNew =>
      have failed := succeeded _ (List.mem_append_right _ List.mem_cons_self)
      contradiction
  | blocked | stored | threw | invalidated | disabled =>
      exact ⟨owned.isDefined, owned.owners, owned.sound⟩
  | storedOutside isReady holds outside =>
      rcases (owned.sound _ _ isReady).of_resourceIt holds with ⟨_, cell, rfl, rfl⟩
      exact absurd (owned.used_of_lookup isReady rfl) (outside cell rfl)
  | operated acted =>
      refine ⟨owned.isDefined, owned.owners.trans ?_, acted.sound owned.sound⟩
      rw [List.perm_iff_count]
      exact fun cell => (acted.count_cells cell).symm
  | @tookBack handle now notified returning strategy cell waiters inCall used notifies =>
      rcases (owned.sound _ _ inCall).of_call with ⟨_, _, same, holds⟩
      obtain ⟨-, rfl⟩ : strategy = _ ∧ cell = _ := by simpa using same
      refine ⟨owned.isDefined, ?_, owned.sound.insert (HandleState.sound_returned returning)⟩
      have others := (owned.owners.trans (Handles.cells_perm_returned inCall holds)).erase cell
      rw [List.erase_cons_head] at others
      rwa [Storage.takeBack_used]
  | finishedOutside inCall outside =>
      rcases (owned.sound _ _ inCall).of_call with ⟨strategy, cell, rfl, holds⟩
      exact absurd (owned.used_of_lookup inCall holds) (outside strategy cell rfl)

theorem Stepped.returned {w after : World V} {event : Event V}
    (stepped : w.Stepped event after) : ∀ result ∈ w.returned, result ∈ after.returned := by
  intro result member
  cases stepped with
  | leased | refused | timedOut => exact List.mem_append_left _ member
  | blocked | stored | storedOutside | threw | operated | tookBack | finishedOutside
  | invalidated | disabled => exact member

/-- What is known of every run: `get` returns usable handles only, and the used cells
have owners as long as no call has failed. -/
structure Known (w : World V) : Prop where
  usable : ∀ result ∈ w.returned, result.handle.unusable = false
  owned : (∀ result ∈ w.returned, result.error = .ok) → w.Owned

theorem Known.step {w after : World V} {event : Event V} (known : w.Known)
    (stepped : w.Stepped event after) : after.Known where
  usable := by
    intro result member
    cases stepped with
    | leased | refused | timedOut =>
        rcases List.mem_append.mp member with older | newer
        · exact known.usable result older
        · rcases List.mem_singleton.mp newer with rfl
          rfl
    | blocked | stored | storedOutside | threw | operated | tookBack | finishedOutside
    | invalidated | disabled => exact known.usable result member
  owned := by
    intro succeeded
    have earlier : w.Owned :=
      known.owned fun result member => succeeded result (stepped.returned result member)
    exact earlier.step stepped succeeded

theorem known_of_initial {w : World V} (isInitial : (system V).Initial w) : w.Known := by
  rcases isInitial with ⟨impl, isConstructed, rfl⟩
  refine ⟨by simp [initially], fun _ => ⟨rfl, ?_, ?_⟩⟩
  · rw [show (initially impl).impl.storage.used = [] from isConstructed.spec.2.2.2.1]
    exact List.Perm.refl _
  · intro handle state found
    simp [initially] at found

/-- Only errors are reported wrongly. -/
theorem Known.reportsRightly_iff {w : World V} (known : w.Known) :
    w.ReportsRightly ↔ ∀ result ∈ w.returned, result.error = .ok := by
  constructor
  · rintro ⟨rightly, _⟩ result member
    rw [← Error.Code.isSet_eq_false_iff, ← rightly result member]
    exact known.usable result member
  · intro succeeded
    refine ⟨?_, (known.owned succeeded).isDefined⟩
    intro result member
    rw [known.usable result member, succeeded result member]
    rfl

theorem Succeeds.returned {w after : World V} {event : Event V} (succeeds : w.Succeeds event)
    (stepped : w.Stepped event after) (earlier : ∀ result ∈ w.returned, result.error = .ok) :
    ∀ result ∈ after.returned, result.error = .ok := by
  intro result member
  cases stepped with
  | leased looks isNew active isLeased =>
      rcases List.mem_append.mp member with older | newer
      · exact earlier result older
      · rw [List.mem_singleton.mp newer]
        rfl
  | refused looks isNew disabled =>
      cases looks with
      | get => exact absurd (disabled.symm.trans succeeds) (by decide)
      | wake => exact absurd (disabled.symm.trans succeeds.2) (by decide)
  | timedOut => exact absurd succeeds.1 (by decide)
  | blocked | stored | storedOutside | threw | operated | tookBack | finishedOutside
  | invalidated | disabled => exact earlier result member

theorem succeeds_of_returned {w after : World V} {event : Event V}
    (stepped : w.Stepped event after) (succeeded : ∀ result ∈ after.returned, result.error = .ok) :
    w.Succeeds event := by
  cases stepped with
  | leased looks isNew active isLeased =>
      cases looks with
      | get => exact active
      | wake => exact ⟨rfl, active⟩
  | blocked looks active full =>
      cases looks with
      | get => exact active
      | wake => exact ⟨rfl, active⟩
  | refused | timedOut =>
      have failed := succeeded _ (List.mem_append_right _ List.mem_cons_self)
      contradiction
  | stored | storedOutside | threw | operated | tookBack | finishedOutside | invalidated
  | disabled => trivial

/--
In every state of a run the handles returned are usable just if no error was reported with
them, and only used cells were given back, just if no call of `get` fails in the run.
-/
theorem reportsRightly_iff_succeeds {w final : World V} {events : List (Event V)}
    (isInitial : (system V).Initial w) (ran : (system V).execute w events = some final) :
    (system V).Throughout ReportsRightly w events ↔ (system V).EachStep Succeeds w events := by
  have known := known_of_initial isInitial
  apply Transition.System.throughout_iff_eachStep
    (fun _ _ _ known stepped => known.step (stepped_of_step stepped).2) ?_ ?_ known ?_ ran
  · intro before event after known rightly succeeds stepped
    have effect := (stepped_of_step stepped).2
    rw [known.reportsRightly_iff] at rightly
    exact (known.step effect).reportsRightly_iff.mpr (succeeds.returned effect rightly)
  · intro before event after known _ stepped rightly
    have effect := (stepped_of_step stepped).2
    exact succeeds_of_returned effect ((known.step effect).reportsRightly_iff.mp rightly)
  · rw [known.reportsRightly_iff]
    rcases isInitial with ⟨impl, _, rfl⟩
    simp [initially]

/-- A client waits for the cell until another one recycles it. -/
def waitingRun : List (Event ℕ) :=
  [.get 0 .recycle Ticks.zero (Ticks.clamp 10), .get 1 .waste (Ticks.clamp 5) (Ticks.clamp 11),
    .operate (.giveBack 0 .recycle), .finish 0 (Ticks.clamp 12) (some 0),
    .wake 0 1 .noTimeout (Ticks.clamp 13)]

theorem reportsRightly_waiting : (system ℕ).Throughout ReportsRightly oneCell waitingRun := by
  have ran : ((system ℕ).execute oneCell waitingRun).isSome := rfl
  exact (reportsRightly_iff_succeeds oneCell_initial (Option.some_get ran).symm).mpr (by decide)

/-- A call times out while the cell is used, and the handle which it returned is
destroyed. -/
def timedOutRun : List (Event ℕ) :=
  [.get 0 .recycle Ticks.zero (Ticks.clamp 10), .get 1 .waste Ticks.zero (Ticks.clamp 11),
    .wake 0 1 .timeout (Ticks.clamp 12), .operate (.release 1),
    .finish 1 (Ticks.clamp 13) none]

/-- The handle of the failed call is usable, and its destructor gives a singular iterator
back to the storage. -/
theorem reports_wrongly_timed_out :
    ∃ w, (system ℕ).execute oneCell timedOutRun = some w ∧ (system ℕ).Reachable w ∧
      w.returned[1]? = some
        ⟨.getResourceTimeout, ⟨some (), some .waste, some .singular⟩⟩ ∧
      w.undefined = true ∧ ¬w.ReportsRightly := by
  have ran : ((system ℕ).execute oneCell timedOutRun).isSome := rfl
  have reached :=
    Transition.System.execute_reachable oneCell_initial (Option.some_get ran).symm
  refine ⟨_, (Option.some_get ran).symm, reached, rfl, rfl, ?_⟩
  rintro ⟨_, isDefined⟩
  contradiction

end ResourcePool.Sync.World
