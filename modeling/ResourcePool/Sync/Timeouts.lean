import ResourcePool.Container.Positions
import ResourcePool.Sync.Pool

/-!
# Timeouts beside a free cell

A call of `get` whose wait reports a timeout returns at once, without another look at the
storage. `Meanwhile` is what the other calls have done since such a wait began. The wait
began beside a storage without a free cell, so a timeout is reported rightly just if no more
cells were given back than leased in the meantime, and the pool was not disabled.
-/

namespace ResourcePool.Sync

open Container Transition

/-- What happened since a call of `get` went to sleep. -/
structure Meanwhile where
  returned : ℕ
  leased : ℕ
  disabled : Bool
  deriving DecidableEq

namespace Meanwhile

def nothing : Meanwhile := ⟨0, 0, false⟩

def afterReturn (meanwhile : Meanwhile) : Meanwhile :=
  { meanwhile with returned := meanwhile.returned + 1 }

def afterLease (meanwhile : Meanwhile) : Meanwhile :=
  { meanwhile with leased := meanwhile.leased + 1 }

def afterDisable (meanwhile : Meanwhile) : Meanwhile := { meanwhile with disabled := true }

/-- The record agrees with a pool which had no free cell at its beginning. -/
def Agrees {V : Type} (impl : PoolImpl V) (meanwhile : Meanwhile) : Prop :=
  impl.storage.freeCells + meanwhile.leased = meanwhile.returned ∧
    impl.disabled = meanwhile.disabled

end Meanwhile

namespace World

variable {V : Type}

/-- What a round of `get` at clock reading `now` adds to the records of those who sleep. -/
def observeRound (w : World V) (waitDuration : Duration) (now : TimePoint)
    (others : List Meanwhile) : List Meanwhile :=
  match (w.impl.attempt waitDuration now).2 with
  | .returned _ .singular => others
  | .returned _ (.node _) => others.map Meanwhile.afterLease
  | .waits _ => others ++ [Meanwhile.nothing]

/-- What an event adds to the records of those who sleep, one for each waiter. -/
def observeMeanwhile (w : World V) (sleepers : List Meanwhile) : Event V → List Meanwhile
  | .get _ _ waitDuration now => w.observeRound waitDuration now sleepers
  | .wake index _ .noTimeout now =>
      match w.waiters[index]? with
      | none => sleepers
      | some blocked =>
          w.observeRound blocked.waitDuration now (sleepers.eraseIdx index)
  | .wake index _ .timeout _ => sleepers.eraseIdx index
  | .finish handle now _ =>
      match (w.handles.lookup handle).bind HandleState.call with
      | some call =>
          if (callSection w.impl call now).isSome then sleepers.map Meanwhile.afterReturn
          else sleepers
      | none => sleepers
  | .disable => sleepers.map Meanwhile.afterDisable
  | .reset .. | .operate _ | .invalidate => sleepers

/-- The runs of a pool with the records of those who sleep. -/
def sleepSystem (V : Type) : System (World V × List Meanwhile) (Event V) :=
  (system V).withHistory (fun _ sleepers => sleepers = []) observeMeanwhile

/-- A timeout is reported only if the pool is not disabled and every cell is used. -/
def TimesOutRightly (w : World V) : Event V → Prop
  | .wake _ _ .timeout _ =>
      w.impl.disabled = false ∧
        (∀ cell ∈ w.impl.storage.cells, cell ∈ w.impl.storage.used) ∧
        ∀ now, (w.impl.storage.lease now).1 = none
  | _ => True

/-- A wait which reports a timeout was quiet: every cell given back in the meantime was
leased again, and the pool was not disabled. -/
def WaitsQuietly (pair : World V × List Meanwhile) : Event V → Prop
  | .wake index _ .timeout _ =>
      ∀ meanwhile ∈ pair.2[index]?,
        meanwhile.leased = meanwhile.returned ∧ meanwhile.disabled = false
  | _ => True

instance : DecidableRel (WaitsQuietly : World V × List Meanwhile → Event V → Prop)
  | pair, .wake index _ .timeout _ =>
      inferInstanceAs (Decidable (∀ meanwhile ∈ pair.2[index]?,
        meanwhile.leased = meanwhile.returned ∧ meanwhile.disabled = false))
  | _, .wake _ _ .noTimeout _ | _, .get .. | _, .reset .. | _, .operate _ | _, .finish ..
  | _, .invalidate | _, .disable => .isTrue trivial

/-- There is a record for each waiter, and all agree with the pool. -/
structure Recorded (w : World V) (sleepers : List Meanwhile) : Prop where
  length : sleepers.length = w.waiters.length
  agree : ∀ meanwhile ∈ sleepers, meanwhile.Agrees w.impl

theorem Recorded.of_eraseIdx {w : World V} {sleepers : List Meanwhile}
    (recorded : w.Recorded sleepers) (index : ℕ) :
    (sleepers.eraseIdx index).length = (w.waiters.eraseIdx index).length ∧
      ∀ meanwhile ∈ sleepers.eraseIdx index, meanwhile.Agrees w.impl := by
  constructor
  · rw [List.length_eraseIdx, List.length_eraseIdx, recorded.length]
  · intro meanwhile member
    exact recorded.agree meanwhile (List.mem_of_mem_eraseIdx member)

/-- A round of `get` keeps the records of the other waiters. -/
theorem Looks.observe {w : World V} {event : Event V} {handle : HandleId}
    {useStrategy : Strategy} {waitDuration : Duration} {now : TimePoint}
    {waiters : List Waiter} {sleepers : List Meanwhile} (recorded : w.Recorded sleepers)
    (looks : w.Looks event handle useStrategy waitDuration now waiters) :
    ∃ others, w.observeMeanwhile sleepers event = w.observeRound waitDuration now others ∧
      others.length = waiters.length ∧ ∀ meanwhile ∈ others, meanwhile.Agrees w.impl := by
  cases looks with
  | get => exact ⟨sleepers, rfl, recorded.length, recorded.agree⟩
  | @wake index _ _ _ isWaiter =>
      refine ⟨sleepers.eraseIdx index, ?_, recorded.of_eraseIdx index⟩
      simp only [observeMeanwhile, isWaiter]

theorem Recorded.step {w after : World V} {event : Event V} {sleepers : List Meanwhile}
    (recorded : w.Recorded sleepers) (stepped : w.Stepped event after) :
    after.Recorded (w.observeMeanwhile sleepers event) := by
  cases stepped with
  | leased looks isNew active isLeased =>
      rcases looks.observe recorded with ⟨others, observed, length, agree⟩
      have fewer := Storage.freeCells_lease isLeased
      rw [observed]
      simp only [observeRound, PoolImpl.attempt, active, isLeased, Bool.false_eq_true, if_false]
      refine ⟨by rw [List.length_map]; exact length, ?_⟩
      intro meanwhile member
      rcases List.mem_map.mp member with ⟨earlier, isEarlier, rfl⟩
      rcases agree earlier isEarlier with ⟨balance, disabled⟩
      refine ⟨?_, active.symm.trans disabled⟩
      simp only [returnTo, Meanwhile.afterLease]
      omega
  | refused looks isNew disabled =>
      rcases looks.observe recorded with ⟨others, observed, length, agree⟩
      rw [observed]
      simp only [observeRound, PoolImpl.attempt, disabled, if_true]
      exact ⟨length, agree⟩
  | @blocked _ _ _ _ now _ looks active full =>
      rcases looks.observe recorded with ⟨others, observed, length, agree⟩
      rw [observed]
      simp only [observeRound, PoolImpl.attempt, active, Storage.lease_of_noFreeCell now full,
        Bool.false_eq_true, if_false]
      constructor
      · rw [List.length_append, List.length_append, length]
        rfl
      · intro meanwhile member
        rcases List.mem_append.mp member with earlier | newer
        · exact agree meanwhile earlier
        · rcases List.mem_singleton.mp newer with rfl
          exact ⟨Storage.noFreeCell_iff.mp full, active⟩
  | @timedOut index => exact ⟨(recorded.of_eraseIdx index).1, (recorded.of_eraseIdx index).2⟩
  | stored | storedOutside | threw | operated => exact ⟨recorded.length, recorded.agree⟩
  | @tookBack handle now notified returning strategy cell waiters inCall used notifies =>
      have freed := Storage.freeCells_of_erase used
        (w.impl.storage.takeBack_cells_perm strategy used now)
        (w.impl.storage.takeBack_used strategy used now)
      simp only [observeMeanwhile, inCall, Option.bind_some, callSection,
        PoolImpl.giveBack_used _ _ used, Option.isSome_some, if_true]
      refine ⟨by rw [List.length_map, length_notifyOne notifies]; exact recorded.length, ?_⟩
      intro meanwhile member
      rcases List.mem_map.mp member with ⟨earlier, isEarlier, rfl⟩
      rcases recorded.agree earlier isEarlier with ⟨balance, disabled⟩
      refine ⟨?_, disabled⟩
      simp only [Meanwhile.afterReturn]
      omega
  | @finishedOutside handle now notified returning call inCall outside =>
      have undefined : callSection w.impl call now = none := by
        cases result : callSection w.impl call now with
        | none => rfl
        | some impl =>
            simp only [callSection] at result
            split at result
            · next strategy resourceIt =>
                rcases PoolImpl.used_of_giveBack result with ⟨cell, rfl, used⟩
                exact absurd used (outside strategy cell rfl)
            · contradiction
      simp only [observeMeanwhile, inCall, Option.bind_some, undefined, Option.isSome_none,
        Bool.false_eq_true, if_false]
      exact ⟨recorded.length, recorded.agree⟩
  | invalidated =>
      refine ⟨recorded.length, ?_⟩
      intro meanwhile member
      rcases recorded.agree meanwhile member with ⟨balance, disabled⟩
      refine ⟨?_, disabled⟩
      rw [Storage.freeCells_invalidate]
      exact balance
  | disabled =>
      refine ⟨by simpa [observeMeanwhile, notifyAll] using recorded.length, ?_⟩
      intro meanwhile member
      rcases List.mem_map.mp member with ⟨earlier, isEarlier, rfl⟩
      exact ⟨(recorded.agree earlier isEarlier).1, rfl⟩

theorem noFreeCell_iff_used (s : Storage V) :
    s.NoFreeCell ↔ (∀ cell ∈ s.cells, cell ∈ s.used) ∧ ∀ now, (s.lease now).1 = none := by
  constructor
  · intro full
    constructor
    · intro cell member
      simpa [Lists.cells, full.1, full.2] using member
    · intro now
      rw [s.lease_of_noFreeCell now full]
  · rintro ⟨_, leasesNothing⟩
    exact (Storage.lease_none (leasesNothing Ticks.zero)).1

/-- A timeout is reported rightly just if its wait was quiet. -/
theorem timesOutRightly_iff_of_recorded {w after : World V} {sleepers : List Meanwhile}
    {event : Event V} (recorded : w.Recorded sleepers) (stepped : w.Stepped event after) :
    w.TimesOutRightly event ↔ WaitsQuietly (w, sleepers) event := by
  cases stepped with
  | @timedOut index handle now waiter isWaiter isNew =>
      rcases List.getElem?_eq_some_iff.mp isWaiter with ⟨inRange, _⟩
      rw [← recorded.length] at inRange
      have isRecord := List.getElem?_eq_getElem inRange
      rcases recorded.agree _ (List.getElem_mem inRange) with ⟨balance, disabled⟩
      simp only [TimesOutRightly, WaitsQuietly, isRecord, Option.mem_some_iff, forall_eq']
      rw [← noFreeCell_iff_used, Storage.noFreeCell_iff, disabled]
      constructor
      · rintro ⟨active, nothingFree⟩
        exact ⟨by omega, active⟩
      · rintro ⟨balanced, active⟩
        exact ⟨active, by omega⟩
  | leased looks | refused looks | blocked looks =>
      cases looks <;> exact Iff.rfl
  | stored | storedOutside | threw | operated | tookBack | finishedOutside | invalidated
  | disabled => exact Iff.rfl

/--
In a run every timeout is reported beside a storage without a free cell, by a pool which is
not disabled, just if in every wait which reports one as many cells were leased as given
back by the other calls, and `disable` did not run.
-/
theorem timesOutRightly_iff_waitsQuietly {w final : World V} {events : List (Event V)}
    (isInitial : (system V).Initial w) (ran : (system V).execute w events = some final) :
    (system V).EachStep TimesOutRightly w events ↔
      (sleepSystem V).EachStep WaitsQuietly (w, []) events := by
  have recorded : w.Recorded [] := by
    rcases isInitial with ⟨impl, _, rfl⟩
    exact ⟨rfl, by simp⟩
  have beside : ∃ later, (sleepSystem V).execute (w, []) events = some (final, later) :=
    System.withHistory_execute ran []
  have plain : (sleepSystem V).EachStep (fun pair event => pair.1.TimesOutRightly event)
      (w, []) events ↔ (system V).EachStep TimesOutRightly w events :=
    System.eachStep_withHistory_iff ran
  rcases beside with ⟨later, ranBeside⟩
  rw [← plain]
  apply System.eachStep_iff_eachStep
    (motive := fun pair : World V × List Meanwhile => pair.1.Recorded pair.2) ?_ ?_ recorded
    ranBeside
  · rintro ⟨before, sleepers⟩ event ⟨after, later⟩ recorded stepped
    rcases System.withHistory_step_eq_some.mp stepped with ⟨moved, rfl⟩
    exact Recorded.step recorded (stepped_of_step moved).2
  · rintro ⟨before, sleepers⟩ event ⟨after, later⟩ recorded stepped
    rcases System.withHistory_step_eq_some.mp stepped with ⟨moved, _⟩
    exact timesOutRightly_iff_of_recorded recorded (stepped_of_step moved).2

/-- The cell which comes back during a wait is leased again before the timeout. -/
def overtakenRun : List (Event ℕ) :=
  [.get 0 .recycle Ticks.zero (Ticks.clamp 10), .get 1 .waste (Ticks.clamp 5) (Ticks.clamp 11),
    .operate (.giveBack 0 .recycle), .finish 0 (Ticks.clamp 12) (some 0),
    .get 2 .recycle Ticks.zero (Ticks.clamp 13), .wake 0 1 .timeout (Ticks.clamp 16)]

theorem timesOutRightly_overtaken :
    (system ℕ).EachStep TimesOutRightly oneCell overtakenRun := by
  have ran : ((system ℕ).execute oneCell overtakenRun).isSome := rfl
  exact (timesOutRightly_iff_waitsQuietly oneCell_initial (Option.some_get ran).symm).mpr
    (by decide)

/-- The cell comes back during a wait which then reports a timeout. -/
def missedRun : List (Event ℕ) :=
  [.get 0 .recycle Ticks.zero (Ticks.clamp 10), .get 1 .waste (Ticks.clamp 5) (Ticks.clamp 11),
    .operate (.giveBack 0 .recycle), .finish 0 (Ticks.clamp 12) (some 0)]

/-- The call times out beside a free cell. -/
theorem times_out_beside_free_cell :
    ∃ w after, (system ℕ).execute oneCell missedRun = some w ∧ (system ℕ).Reachable w ∧
      w.impl.storage.available = [0] ∧
      w.step (.wake 0 1 .timeout (Ticks.clamp 16)) = some after ∧
      after.returned = w.returned ++
        [⟨.getResourceTimeout, ⟨some (), some .waste, some .singular⟩⟩] ∧
      ¬w.TimesOutRightly (.wake 0 1 .timeout (Ticks.clamp 16)) := by
  have ran : ((system ℕ).execute oneCell missedRun).isSome := rfl
  have reached := System.execute_reachable oneCell_initial (Option.some_get ran).symm
  refine ⟨_, _, (Option.some_get ran).symm, reached, rfl, rfl, rfl, ?_⟩
  rintro ⟨_, allUsed, _⟩
  have isUsed : 0 ∈ ([] : List CellId) := allUsed 0 List.mem_cons_self
  contradiction

end World

end ResourcePool.Sync
