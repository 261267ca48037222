import ResourcePool.Sync.Pool

/-!
# The deadline of a call

Each wait of a call of `get` is asked to last for the whole `wait_duration` of the call, so
a call which is woken beside a storage without a free cell begins again to wait as long as
before. `Waits` records the waits of all calls with the clock readings at which the call
was entered and the wait began. The time left of the call is exceeded by each wait which
begins after the call was entered, if the end of the clock is not reached first.
-/

namespace ResourcePool.Sync

open Transition

/-- An event with the reading at which a call of `get` was entered, if the event is its
first round, and the reading at which a wait begins, if the event leads to one. -/
structure TimedEvent (V : Type) where
  event : Event V
  enteredAt : TimePoint
  startsAt : TimePoint

/-- A call of `wait_for` with the data of the call of `get` which makes it. -/
structure Wait where
  enteredAt : TimePoint
  startedAt : TimePoint
  waitDuration : Duration
  requested : Duration
  deriving DecidableEq

/-- The readings at which the calls of the waiters were entered, one for each waiter, and
all waits begun so far. -/
structure Waits where
  entered : List TimePoint
  started : List Wait

namespace World

variable {V : Type}

/-- The wait with which a round of `get` at clock reading `now` ends, if it ends with one. -/
def roundWait (w : World V) (now enteredAt startsAt : TimePoint) (waitDuration : Duration) :
    Option Wait :=
  match (w.impl.attempt waitDuration now).2 with
  | .returned .. => none
  | .waits requested => some ⟨enteredAt, startsAt, waitDuration, requested⟩

/-- The wait which an event begins. -/
def begins (w : World V) (waits : Waits) (timed : TimedEvent V) : Option Wait :=
  match timed.event with
  | .get _ _ waitDuration now => w.roundWait now timed.enteredAt timed.startsAt waitDuration
  | .wake index _ .noTimeout now => do
      let enteredAt ← waits.entered[index]?
      let waiter ← w.waiters[index]?
      w.roundWait now enteredAt timed.startsAt waiter.waitDuration
  | _ => none

/-- The readings of the waiters which an event leaves asleep. -/
def stayAsleep (entered : List TimePoint) : Event V → List TimePoint
  | .wake index _ _ _ => entered.eraseIdx index
  | _ => entered

def observeWaits (w : World V) (waits : Waits) (timed : TimedEvent V) : Waits where
  entered := stayAsleep waits.entered timed.event ++
    ((w.begins waits timed).map Wait.enteredAt).toList
  started := waits.started ++ (w.begins waits timed).toList

/-- The runs of a pool in time, with the waits of its calls. -/
def waitSystem (V : Type) : System (World V × Waits) (TimedEvent V) :=
  System.withHistory
    { Initial := (system V).Initial
      step := fun w timed => w.step timed.event }
    (fun _ waits => waits = ⟨[], []⟩) observeWaits

/-- No wait is asked to last longer than the time left of its call. -/
def HonoursDeadline (pair : World V × Waits) : Prop :=
  ∀ wait ∈ pair.2.started, Ticks.zero ≤ wait.waitDuration →
    TimeTraits.add wait.startedAt wait.requested ≤
      TimeTraits.add wait.enteredAt wait.waitDuration

/-- A wait begins no later than its call was entered, or the deadline of the call is the
end of the clock. -/
def BeginsInTime (pair : World V × Waits) (timed : TimedEvent V) : Prop :=
  ∀ wait ∈ pair.1.begins pair.2 timed, Ticks.zero ≤ wait.waitDuration →
    wait.startedAt ≤ wait.enteredAt ∨
      Ticks.max.count ≤ wait.enteredAt.count + wait.waitDuration.count

instance : DecidableRel (BeginsInTime : World V × Waits → TimedEvent V → Prop) :=
  fun pair timed => inferInstanceAs (Decidable (∀ wait ∈ pair.1.begins pair.2 timed,
    Ticks.zero ≤ wait.waitDuration → wait.startedAt ≤ wait.enteredAt ∨
      Ticks.max.count ≤ wait.enteredAt.count + wait.waitDuration.count))

theorem requested_of_roundWait {w : World V} {now enteredAt startsAt : TimePoint}
    {waitDuration : Duration} {wait : Wait}
    (isWait : w.roundWait now enteredAt startsAt waitDuration = some wait) :
    wait.requested = wait.waitDuration := by
  simp only [roundWait] at isWait
  split at isWait
  · contradiction
  · next isRequested =>
      rcases Option.some.inj isWait with rfl
      exact PoolImpl.requested_of_attempt isRequested

theorem requested_of_begins {w : World V} {waits : Waits} {timed : TimedEvent V} {wait : Wait}
    (isWait : wait ∈ w.begins waits timed) : wait.requested = wait.waitDuration := by
  simp only [begins, Option.mem_def] at isWait
  split at isWait
  · exact requested_of_roundWait isWait
  · simp only [Option.bind_eq_bind, Option.bind_eq_some_iff] at isWait
    rcases isWait with ⟨_, _, _, _, isWait⟩
    exact requested_of_roundWait isWait
  · contradiction

theorem honoursDeadline_observe_iff {w : World V} {waits : Waits} {timed : TimedEvent V}
    {after : World V} :
    HonoursDeadline (after, w.observeWaits waits timed) ↔
      HonoursDeadline (w, waits) ∧ BeginsInTime (w, waits) timed := by
  have inTime : ∀ wait ∈ w.begins waits timed, Ticks.zero ≤ wait.waitDuration →
      (TimeTraits.add wait.startedAt wait.requested ≤
          TimeTraits.add wait.enteredAt wait.waitDuration ↔
        wait.startedAt ≤ wait.enteredAt ∨
          Ticks.max.count ≤ wait.enteredAt.count + wait.waitDuration.count) := by
    intro wait isWait forward
    rw [requested_of_begins isWait]
    exact TimeTraits.add_le_add_iff forward
  constructor
  · intro honours
    constructor
    · intro wait older forward
      exact honours wait (List.mem_append_left _ older) forward
    · intro wait isWait forward
      apply (inTime wait isWait forward).mp
      exact honours wait (List.mem_append_right _ (Option.mem_toList.mpr isWait)) forward
  · rintro ⟨honours, beginsInTime⟩ wait member forward
    rcases List.mem_append.mp member with older | newer
    · exact honours wait older forward
    · have isWait := Option.mem_toList.mp newer
      exact (inTime wait isWait forward).mpr (beginsInTime wait isWait forward)

/-- A round of `get` begins a wait just if its result is one. -/
theorem Looks.begins {w : World V} {waits : Waits} {timed : TimedEvent V} {handle : HandleId}
    {useStrategy : Strategy} {waitDuration : Duration} {now : TimePoint}
    {waiters : List Waiter} (length : waits.entered.length = w.waiters.length)
    (looks : w.Looks timed.event handle useStrategy waitDuration now waiters) :
    (stayAsleep waits.entered timed.event).length = waiters.length ∧
      ∃ enteredAt, w.begins waits timed =
        w.roundWait now enteredAt timed.startsAt waitDuration := by
  rcases timed with ⟨event, enteredAt, startsAt⟩
  cases looks with
  | get => exact ⟨length, enteredAt, rfl⟩
  | @wake index _ _ waiter isWaiter =>
      rcases List.getElem?_eq_some_iff.mp isWaiter with ⟨inRange, _⟩
      rw [← length] at inRange
      constructor
      · rw [stayAsleep, List.length_eraseIdx, List.length_eraseIdx, length]
      · refine ⟨waits.entered[index], ?_⟩
        simp [World.begins, isWaiter, List.getElem?_eq_getElem inRange]

theorem length_entered_step {w after : World V} {waits : Waits} {timed : TimedEvent V}
    (length : waits.entered.length = w.waiters.length)
    (stepped : w.Stepped timed.event after) :
    (w.observeWaits waits timed).entered.length = after.waiters.length := by
  rw [observeWaits, List.length_append]
  rcases timed with ⟨event, enteredAt, startsAt⟩
  cases stepped with
  | leased looks isNew active isLeased =>
      rcases looks.begins length with ⟨asleep, _, isRound⟩
      rw [isRound, asleep]
      simp [roundWait, PoolImpl.attempt, active, isLeased, returnTo]
  | refused looks isNew disabled =>
      rcases looks.begins length with ⟨asleep, _, isRound⟩
      rw [isRound, asleep]
      simp [roundWait, PoolImpl.attempt, disabled, returnTo]
  | @blocked _ _ _ _ now _ looks active full =>
      rcases looks.begins length with ⟨asleep, _, isRound⟩
      rw [isRound, asleep]
      simp [roundWait, PoolImpl.attempt, active, Storage.lease_of_noFreeCell now full]
  | @timedOut index =>
      change (waits.entered.eraseIdx index).length + 0 = (w.waiters.eraseIdx index).length
      rw [List.length_eraseIdx, List.length_eraseIdx, length, Nat.add_zero]
  | @tookBack _ _ notified _ _ _ waiters inCall used notifies =>
      exact length.trans (length_notifyOne notifies).symm
  | disabled =>
      change waits.entered.length = (notifyAll w.waiters).length
      rw [notifyAll, List.length_map, length]
  | stored | storedOutside | threw | operated | finishedOutside | invalidated => exact length

theorem length_entered {pair : World V × Waits} (reached : (waitSystem V).Reachable pair) :
    pair.2.entered.length = pair.1.waiters.length := by
  apply System.Reachable.invariant
    (motive := fun pair : World V × Waits => pair.2.entered.length = pair.1.waiters.length)
    ?_ ?_ reached
  · rintro ⟨start, waits⟩ ⟨⟨impl, _, rfl⟩, rfl⟩
    rfl
  · rintro ⟨before, waits⟩ timed ⟨after, later⟩ length stepped
    rcases System.withHistory_step_eq_some.mp stepped with ⟨moved, rfl⟩
    exact length_entered_step length (stepped_of_step moved).2

/--
Throughout a run no wait is asked to last longer than the time left of its call, just if
each wait of the run begins no later than its call was entered, or the deadline of the call
is the end of the clock. The entry of every waiter is on record.
-/
theorem honoursDeadline_iff_beginsInTime {w : World V} {final : World V × Waits}
    {timeds : List (TimedEvent V)} (isInitial : (system V).Initial w)
    (ran : (waitSystem V).execute (w, ⟨[], []⟩) timeds = some final) :
    final.2.entered.length = final.1.waiters.length ∧
    ((waitSystem V).Throughout HonoursDeadline (w, ⟨[], []⟩) timeds ↔
      (waitSystem V).EachStep BeginsInTime (w, ⟨[], []⟩) timeds) := by
  constructor
  · exact length_entered (System.execute_reachable ⟨isInitial, rfl⟩ ran)
  · apply System.throughout_iff_eachStep (fun _ _ _ (_ : True) _ => trivial) ?_ ?_ trivial ?_
      ran
    · rintro ⟨before, waits⟩ timed ⟨after, later⟩ _ honours beginsInTime stepped
      rcases System.withHistory_step_eq_some.mp stepped with ⟨_, rfl⟩
      exact honoursDeadline_observe_iff.mpr ⟨honours, beginsInTime⟩
    · rintro ⟨before, waits⟩ timed ⟨after, later⟩ _ _ stepped honours
      rcases System.withHistory_step_eq_some.mp stepped with ⟨_, rfl⟩
      exact (honoursDeadline_observe_iff.mp honours).2
    · intro wait member
      contradiction

/-- A call waits once, from the reading at which it was entered. -/
def promptRun : List (TimedEvent ℕ) :=
  [⟨.get 0 .recycle Ticks.zero (Ticks.clamp 10), Ticks.clamp 10, Ticks.clamp 10⟩,
    ⟨.get 1 .waste (Ticks.clamp 5) (Ticks.clamp 11), Ticks.clamp 11, Ticks.clamp 11⟩,
    ⟨.wake 0 1 .timeout (Ticks.clamp 16), Ticks.clamp 16, Ticks.clamp 16⟩]

theorem honoursDeadline_prompt :
    (waitSystem ℕ).Throughout HonoursDeadline (oneCell, ⟨[], []⟩) promptRun := by
  have ran : ((waitSystem ℕ).execute (oneCell, ⟨[], []⟩) promptRun).isSome := rfl
  exact (honoursDeadline_iff_beginsInTime oneCell_initial (Option.some_get ran).symm).2.mpr
    (by decide)

/-- A call which was entered at 11 for a duration of 5 is woken at 14 and waits again. -/
def prolongedRun : List (TimedEvent ℕ) :=
  [⟨.get 0 .recycle Ticks.zero (Ticks.clamp 10), Ticks.clamp 10, Ticks.clamp 10⟩,
    ⟨.get 1 .waste (Ticks.clamp 5) (Ticks.clamp 11), Ticks.clamp 11, Ticks.clamp 11⟩,
    ⟨.wake 0 1 .noTimeout (Ticks.clamp 14), Ticks.clamp 14, Ticks.clamp 14⟩]

/-- The second wait lasts until 19, beyond the deadline of the call. -/
theorem waits_beyond_deadline :
    ∃ w waits, (waitSystem ℕ).execute (oneCell, ⟨[], []⟩) prolongedRun = some (w, waits) ∧
      (waitSystem ℕ).Reachable (w, waits) ∧
      waits.started[1]? = some ⟨Ticks.clamp 11, Ticks.clamp 14, Ticks.clamp 5, Ticks.clamp 5⟩ ∧
      ¬HonoursDeadline (w, waits) := by
  have ran : ((waitSystem ℕ).execute (oneCell, ⟨[], []⟩) prolongedRun).isSome := rfl
  have reached : (waitSystem ℕ).Reachable _ :=
    System.execute_reachable ⟨oneCell_initial, rfl⟩ (Option.some_get ran).symm
  refine ⟨_, _, (Option.some_get ran).symm, reached, rfl, ?_⟩
  intro honours
  have inTime := honours
    ⟨Ticks.clamp 11, Ticks.clamp 14, Ticks.clamp 5, Ticks.clamp 5⟩
    (List.mem_of_getElem? (i := 1) rfl) (by decide)
  exact absurd inTime (by decide)

end World

end ResourcePool.Sync
