import ResourcePool.Async.Locking
import ResourcePool.Concurrency.Rules

/-!
# What the mutexes of a pool guard

The mutex of the pool guards `_disabled` and the storage, and that of the queue guards the
lists and the multimap of the requests and the map of the timers with their expiries. Two
things are left out. The value of a used cell is cleared without the mutex of the pool, by
`recycle` and `waste` when they hand the cell over. The waits which are armed on a timer, and
those which have completed, are kept by asio, which completes them without a mutex of the
pool.

`Routine.rule` says this of the accesses, and besides that the mutex of the queue is
locked last.
-/

namespace ResourcePool.Async

open Concurrency Transition

/-- The mutex of the queue is locked last. -/
def PoolMutex.rank : PoolMutex → ℕ
  | pool => 0
  | queue => 1

namespace PoolImpl

variable {V Request IoContext : Type}

/-- Two storages differ at most in the values of used cells. -/
structure SameButValues (s t : Storage V) : Prop where
  available : t.available = s.available
  used : t.used = s.used
  wasted : t.wasted = s.wasted
  node : ∀ cell, cell ∉ s.used → t.node cell = s.node cell
  dropTime : ∀ cell, (t.node cell).dropTime = (s.node cell).dropTime
  resetTime : ∀ cell, (t.node cell).resetTime = (s.node cell).resetTime
  wasteOnRecycle : ∀ cell, (t.node cell).wasteOnRecycle = (s.node cell).wasteOnRecycle

/-- The expiry of the timer of an `io_context`, if the map has one. -/
def expiryOf [DecidableEq IoContext] (impl : PoolImpl V Request IoContext)
    (ioContext : IoContext) : Option TimePoint :=
  (impl.callbacks.timers.lookup ioContext).map Timer.expiresAt

/-- The waits which asio has armed for an `io_context`. -/
def waitsOf [DecidableEq IoContext] (impl : PoolImpl V Request IoContext)
    (ioContext : IoContext) : List TimePoint :=
  ((impl.callbacks.timers.lookup ioContext).map Timer.waits).getD []

/-- What the mutexes guard. -/
def guarded [DecidableEq IoContext] : PoolMutex → SharedPart (PoolImpl V Request IoContext)
  | .pool =>
      { sameInside := fun impl other =>
          other.disabled = impl.disabled ∧ SameButValues impl.storage other.storage
        sameOutside := fun impl other =>
          other.callbacks = impl.callbacks ∧ other.capacity = impl.capacity }
  | .queue =>
      { sameInside := fun impl other =>
          other.callbacks.toIndexes = impl.callbacks.toIndexes ∧
            ∀ ioContext, other.expiryOf ioContext = impl.expiryOf ioContext
        sameOutside := fun impl other =>
          other.storage = impl.storage ∧ other.capacity = impl.capacity ∧
            other.disabled = impl.disabled ∧
            (∀ ioContext, other.waitsOf ioContext = impl.waitsOf ioContext) ∧
            other.callbacks.completed = impl.callbacks.completed }

theorem sameButValues_refl (s : Storage V) : SameButValues s s :=
  ⟨rfl, rfl, rfl, fun _ _ => rfl, fun _ => rfl, fun _ => rfl, fun _ => rfl⟩

theorem sameButValues_resetValue {s : Storage V} {cell : CellId} (used : cell ∈ s.used) :
    SameButValues s (s.resetValue cell) := by
  have node : ∀ other, (s.resetValue cell).node other =
      if other = cell then (s.node cell).clear else s.node other := by
    intro other
    by_cases same : other = cell
    · subst same
      simp [Storage.resetValue, Storage.write, Storage.rearrange]
    · simp [Storage.resetValue, Storage.write, Storage.rearrange, same]
  refine ⟨rfl, rfl, rfl, ?_, ?_, ?_, ?_⟩
  · intro other unused
    rw [node, if_neg]
    rintro rfl
    exact unused used
  all_goals
    intro other
    rw [node]
    split
    · next same => rw [same]; rfl
    · rfl

end PoolImpl

namespace Routine

variable {V Request IoContext : Type} [DecidableEq IoContext]

variable (V Request IoContext) in
/-- The mutex of the queue is locked last, and accesses keep apart from what is guarded by
a mutex which is not held. -/
def rule : Rule (PoolImpl V Request IoContext) PoolMutex (Submission Request IoContext)
    (Routine Request IoContext) where
  mayLock held mutex := ∀ other ∈ held, other.rank < mutex.rank
  mayAccess held effect next :=
    ∀ mutex, mutex ∉ held → (PoolImpl.guarded mutex).Apart effect next

abbrev Obeys (held : List PoolMutex) (program : Body V Request IoContext) : Prop :=
  program.Obeys (rule V Request IoContext) held

/-- An access with all mutexes. -/
theorem mayAccess_locked
    {effect : PoolImpl V Request IoContext → Option (PoolImpl V Request IoContext)}
    {next : PoolImpl V Request IoContext → Body V Request IoContext} :
    (rule V Request IoContext).mayAccess [.queue, .pool] effect next := by
  intro mutex notHeld
  cases mutex <;> simp at notHeld

section

variable {effect : PoolImpl V Request IoContext → Option (PoolImpl V Request IoContext)}
  {next : PoolImpl V Request IoContext → Body V Request IoContext}

/-- An access which is the same whatever is queued. -/
theorem apart_queue
    (commutes : ∀ impl callbacks, effect { impl with callbacks := callbacks } =
      (effect impl).map fun after => { after with callbacks := callbacks })
    (same : ∀ impl callbacks, next { impl with callbacks := callbacks } = next impl) :
    (PoolImpl.guarded .queue).Apart effect next where
  keeps := by
    intro impl after accessed
    have kept := commutes impl impl.callbacks
    rw [accessed, Option.map_some, Option.some.injEq] at kept
    rw [kept]
    exact ⟨rfl, fun _ => rfl⟩
  blind := by
    rintro impl ⟨storage, capacity, callbacks, disabled⟩ ⟨rfl, rfl, rfl, waits, completed⟩
    refine ⟨(same impl callbacks).symm, ?_⟩
    intro after otherAfter accessed otherAccessed
    have moved := commutes impl callbacks
    have kept := commutes impl impl.callbacks
    rw [accessed, Option.map_some, Option.some.injEq] at kept
    rw [accessed, otherAccessed, Option.map_some, Option.some.injEq] at moved
    have callbacksKept : after.callbacks = impl.callbacks := by rw [kept]
    subst moved
    refine ⟨rfl, rfl, rfl, ?_, ?_⟩
    · intro ioContext
      rw [PoolImpl.waitsOf, PoolImpl.waitsOf, callbacksKept]
      exact waits ioContext
    · rw [callbacksKept]
      exact completed

/-- An access which is the same whatever is stored. -/
theorem apart_pool
    (commutes : ∀ impl storage disabled,
      effect { impl with storage := storage, disabled := disabled } =
        (effect impl).map fun after => { after with storage := storage, disabled := disabled })
    (same : ∀ impl storage disabled,
      next { impl with storage := storage, disabled := disabled } = next impl) :
    (PoolImpl.guarded .pool).Apart effect next where
  keeps := by
    intro impl after accessed
    have kept := commutes impl impl.storage impl.disabled
    rw [accessed, Option.map_some, Option.some.injEq] at kept
    rw [kept]
    exact ⟨rfl, PoolImpl.sameButValues_refl _⟩
  blind := by
    rintro impl ⟨storage, capacity, callbacks, disabled⟩ ⟨rfl, rfl⟩
    refine ⟨(same impl storage disabled).symm, ?_⟩
    intro after otherAfter accessed otherAccessed
    have moved := commutes impl storage disabled
    rw [accessed, Option.map_some] at moved
    rw [otherAccessed, Option.some.injEq] at moved
    subst moved
    exact ⟨rfl, rfl⟩

/-- An access with the mutex of the pool only. -/
theorem mayAccess_pool
    (commutes : ∀ impl callbacks, effect { impl with callbacks := callbacks } =
      (effect impl).map fun after => { after with callbacks := callbacks })
    (same : ∀ impl callbacks, next { impl with callbacks := callbacks } = next impl) :
    (rule V Request IoContext).mayAccess [.pool] effect next := by
  intro mutex notHeld
  cases mutex with
  | pool => simp at notHeld
  | queue => exact apart_queue commutes same

/-- An access with the mutex of the queue only. -/
theorem mayAccess_queue
    (commutes : ∀ impl storage disabled,
      effect { impl with storage := storage, disabled := disabled } =
        (effect impl).map fun after => { after with storage := storage, disabled := disabled })
    (same : ∀ impl storage disabled,
      next { impl with storage := storage, disabled := disabled } = next impl) :
    (rule V Request IoContext).mayAccess [.queue] effect next := by
  intro mutex notHeld
  cases mutex with
  | pool => exact apart_pool commutes same
  | queue => simp at notHeld

end

omit [DecidableEq IoContext] in
theorem get_callbacks (impl : PoolImpl V Request IoContext)
    (callbacks : CoherentQueue Request IoContext) (ioContext : IoContext) (handler : Request)
    (waitDuration : Duration) (now : TimePoint) :
    { impl with callbacks := callbacks }.get ioContext handler waitDuration now =
      ({ (impl.get ioContext handler waitDuration now).1 with callbacks := callbacks },
        (impl.get ioContext handler waitDuration now).2) := by
  simp only [PoolImpl.get]
  split
  · rfl
  · split
    · rfl
    · split <;> rfl

theorem push_storage (impl : PoolImpl V Request IoContext) (storage : Storage V)
    (disabled : Bool) (get : UnlockedGet Request IoContext) (now : TimePoint) :
    { impl with storage := storage, disabled := disabled }.push get now =
      ({ (impl.push get now).1 with storage := storage, disabled := disabled },
        (impl.push get now).2) := by
  simp only [PoolImpl.push]
  split <;> rfl

omit [DecidableEq IoContext] in
theorem onUsedCell_callbacks (impl : PoolImpl V Request IoContext)
    (callbacks : CoherentQueue Request IoContext) (resIt : CellIterator)
    (effect : (storage : Storage V) → (cell : CellId) → cell ∈ storage.used → Storage V) :
    { impl with callbacks := callbacks }.onUsedCell resIt (effect impl.storage) =
      (impl.onUsedCell resIt (effect impl.storage)).map fun after =>
        { after with callbacks := callbacks } := by
  cases resIt with
  | singular => rfl
  | node cell =>
      simp only [PoolImpl.onUsedCell]
      split <;> rfl

omit [DecidableEq IoContext] in
theorem onUsedCell_eq_some {impl after : PoolImpl V Request IoContext} {resIt : CellIterator}
    {effect : (cell : CellId) → cell ∈ impl.storage.used → Storage V}
    (accessed : impl.onUsedCell resIt effect = some after) :
    ∃ cell used, resIt = .node cell ∧ after = { impl with storage := effect cell used } := by
  cases resIt with
  | singular => contradiction
  | node cell =>
      simp only [PoolImpl.onUsedCell, Option.dite_none_right_eq_some,
        Option.some.injEq] at accessed
      rcases accessed with ⟨used, rfl⟩
      exact ⟨cell, used, rfl, rfl⟩

theorem obeys_pop {next : Option (QueuedValue Request IoContext) → Body V Request IoContext}
    (obeys : ∀ queued, Obeys [.pool] (next queued)) : Obeys [.pool] (pop next) :=
  ⟨by simp [rule, PoolMutex.rank], mayAccess_locked, fun _ => obeys _⟩

theorem obeys_push (unlocked : UnlockedGet Request IoContext) (now : TimePoint) :
    Obeys [] (push unlocked now : Body V Request IoContext) := by
  refine ⟨by simp [rule], mayAccess_queue ?_ ?_, fun impl => ?_⟩
  · intro impl storage disabled
    rw [push_storage]
    rfl
  · intro impl storage disabled
    rw [push_storage]
  · change Obeys [] _
    cases (impl.push unlocked now).2 with
    | none => trivial
    | some submission => trivial

theorem obeys_getBody (ioContext : IoContext) (handler : Request) (waitDuration : Duration)
    (now pushedAt : TimePoint) :
    Obeys [] (getBody ioContext handler waitDuration now pushedAt : Body V Request IoContext) := by
  refine ⟨by simp [rule], mayAccess_pool ?_ ?_, fun impl => ?_⟩
  · intro impl callbacks
    rw [get_callbacks]
    rfl
  · intro impl callbacks
    rw [get_callbacks]
  · change Obeys [] _
    cases (impl.get ioContext handler waitDuration now).2 with
    | submitted submission =>
        by_cases disabled : impl.disabled = true
        · simp [disabled, Program.Obeys]
        · simp [disabled, Program.Obeys]
    | unlocked unlocked => exact obeys_push unlocked pushedAt

theorem obeys_giveBack
    {release : PoolImpl V Request IoContext → Option (PoolImpl V Request IoContext)}
    {serve : QueuedValue Request IoContext → Body V Request IoContext}
    (commutes : ∀ impl callbacks, release { impl with callbacks := callbacks } =
      (release impl).map fun after => { after with callbacks := callbacks })
    (obeys : ∀ queued, Obeys [.pool] (serve queued)) : Obeys [] (giveBack release serve) := by
  refine ⟨by simp [rule], obeys_pop ?_⟩
  intro queued
  cases queued with
  | none => exact ⟨mayAccess_pool commutes fun _ _ => rfl, fun _ => trivial⟩
  | some queued => exact obeys queued

theorem obeys_cancelQueuedBody : Obeys [.pool] (cancelQueuedBody : Body V Request IoContext) := by
  apply obeys_pop
  intro queued
  cases queued with
  | none => trivial
  | some queued => trivial

/-- The value of the cell which is handed over is cleared without a mutex. -/
theorem obeys_serveQueued (queued : QueuedValue Request IoContext) (resIt : CellIterator)
    (valid : Bool) : Obeys [.pool] (serveQueued queued resIt valid : Body V Request IoContext) := by
  refine ⟨?_, fun impl => trivial⟩
  intro mutex _
  cases mutex with
  | queue =>
      refine apart_queue (fun impl callbacks => ?_) fun _ _ => rfl
      exact onUsedCell_callbacks impl callbacks resIt fun storage cell _ =>
        if valid then storage else storage.resetValue cell
  | pool =>
      constructor
      · intro impl after accessed
        rcases onUsedCell_eq_some accessed with ⟨cell, used, rfl, rfl⟩
        refine ⟨rfl, ?_⟩
        cases valid with
        | true => exact PoolImpl.sameButValues_refl _
        | false => exact PoolImpl.sameButValues_resetValue used
      · rintro impl other ⟨callbacks, capacity⟩
        refine ⟨rfl, ?_⟩
        intro after otherAfter accessed otherAccessed
        rcases onUsedCell_eq_some accessed with ⟨_, _, _, rfl⟩
        rcases onUsedCell_eq_some otherAccessed with ⟨_, _, _, rfl⟩
        exact ⟨callbacks, capacity⟩

/-- A reading of the storage, which is the same whatever is queued. -/
theorem obeys_observe_pool {Result : Type} {look : PoolImpl V Request IoContext → Result}
    {next : Result → Body V Request IoContext}
    (same : ∀ impl callbacks, look { impl with callbacks := callbacks } = look impl)
    (obeys : ∀ result, Obeys [] (next result)) : Obeys [] (observe .pool look next) := by
  refine ⟨by simp [rule], mayAccess_pool (fun _ _ => rfl) ?_, fun impl => obeys (look impl)⟩
  intro impl callbacks
  rw [same]

/-- A reading of the queue, which is the same whatever is stored. -/
theorem obeys_report_queue {Result : Type} {look : PoolImpl V Request IoContext → Result}
    {reading : Result → Reading}
    (same : ∀ impl storage disabled,
      look { impl with storage := storage, disabled := disabled } = look impl) :
    Obeys [] (report .queue look reading) := by
  refine ⟨by simp [rule], mayAccess_queue (fun _ _ _ => rfl) ?_, fun _ => trivial⟩
  intro impl storage disabled
  rw [same]

/-- `stats` reads the storage and the queue one after the other. -/
theorem obeys_statsBody : Obeys [] (statsBody : Body V Request IoContext) :=
  obeys_observe_pool (fun _ _ => rfl) fun _ => obeys_report_queue fun _ _ _ => rfl

/-- A wait which completes leaves the lists and the expiries of the timers alone, and what
happens to the waits depends on them only. -/
theorem fire_spec {impl after : PoolImpl V Request IoContext} {ioContext : IoContext} {wait : ℕ}
    (fired : impl.fire ioContext wait = some after) :
    (PoolImpl.guarded .queue).sameInside impl after ∧
    after.storage = impl.storage ∧ after.capacity = impl.capacity ∧
    after.disabled = impl.disabled ∧
    ∃ expiresAt, (impl.waitsOf ioContext)[wait]? = some expiresAt ∧
      after.callbacks.completed = impl.callbacks.completed ++ [⟨ioContext, .success, expiresAt⟩] ∧
      ∀ other, after.waitsOf other =
        if other = ioContext then (impl.waitsOf ioContext).eraseIdx wait
        else impl.waitsOf other := by
  simp only [PoolImpl.fire, CoherentQueue.fire, Option.bind_eq_bind, Option.bind_eq_some_iff,
    Option.pure_def, Option.some.injEq] at fired
  rcases fired with ⟨callbacks, isFired, rfl⟩
  split at isFired
  · contradiction
  · next last isLast =>
      rcases Option.some.inj isFired with rfl
      simp only [Queue.fire, Option.bind_eq_bind, Option.bind_eq_some_iff, Option.pure_def,
        Option.some.injEq] at isLast
      rcases isLast with ⟨timer, found, expiresAt, armed, rfl⟩
      have waits : impl.waitsOf ioContext = timer.waits := by
        rw [PoolImpl.waitsOf, found]
        rfl
      refine ⟨⟨rfl, fun other => ?_⟩, rfl, rfl, rfl, expiresAt, waits ▸ armed, rfl, fun other => ?_⟩
      · simp only [PoolImpl.expiryOf]
        by_cases same : other = ioContext
        · rw [same, AList.lookup_insert, found]
          rfl
        · rw [AList.lookup_insert_ne same]
      · rw [waits]
        simp only [PoolImpl.waitsOf]
        by_cases same : other = ioContext
        · rw [same, AList.lookup_insert, if_pos rfl]
          rfl
        · rw [AList.lookup_insert_ne same, if_neg same]

theorem obeys_fireBody (ioContext : IoContext) (wait : ℕ) :
    Obeys [] (fireBody ioContext wait : Body V Request IoContext) := by
  refine ⟨?_, fun _ => trivial⟩
  intro mutex _
  cases mutex with
  | pool =>
      refine apart_pool ?_ fun _ _ _ => rfl
      intro impl storage disabled
      simp only [PoolImpl.fire]
      cases impl.callbacks.fire ioContext wait <;> rfl
  | queue =>
      constructor
      · exact fun impl after fired => (fire_spec fired).1
      · rintro impl other ⟨storage, capacity, disabled, waits, completed⟩
        refine ⟨rfl, ?_⟩
        intro after otherAfter fired otherFired
        rcases fire_spec fired with ⟨_, stored, bound, flag, expiresAt, armed, completes, left⟩
        rcases fire_spec otherFired with
          ⟨_, otherStored, otherBound, otherFlag, otherExpiresAt, otherArmed, otherCompletes,
            otherLeft⟩
        rw [waits] at otherArmed
        obtain rfl : otherExpiresAt = expiresAt := Option.some.inj (otherArmed.symm.trans armed)
        refine ⟨?_, ?_, ?_, fun context => ?_, ?_⟩
        · rw [otherStored, stored, storage]
        · rw [otherBound, bound, capacity]
        · rw [otherFlag, flag, disabled]
        · rw [otherLeft, left, waits, waits]
        · rw [otherCompletes, completes, completed]

theorem obeys_cancel (ec : WaitResult) (expiresAt : TimePoint) :
    Obeys [] (cancel ec expiresAt : Body V Request IoContext) := by
  cases ec with
  | operationAborted => trivial
  | success =>
      refine ⟨by simp [rule], mayAccess_queue (fun _ _ _ => rfl) fun _ _ _ => rfl, fun impl => ?_⟩
      exact Program.obeys_postEach _ (show Obeys [.queue] (.unlock .queue .done) from trivial)

theorem obeys_deliverBody (completion : ℕ) :
    Obeys [] (deliverBody completion : Body V Request IoContext) := by
  refine ⟨?_, fun impl => ?_⟩
  · intro mutex _
    cases mutex with
    | pool =>
        refine apart_pool ?_ fun _ _ _ => rfl
        intro impl storage disabled
        rw [Option.map_map]
        rfl
    | queue =>
        constructor
        · intro impl after accessed
          simp only [Option.map_eq_some_iff] at accessed
          rcases accessed with ⟨_, _, rfl⟩
          exact ⟨rfl, fun _ => rfl⟩
        · rintro impl other ⟨storage, capacity, disabled, waits, completed⟩
          refine ⟨by rw [completed], ?_⟩
          intro after otherAfter accessed otherAccessed
          simp only [Option.map_eq_some_iff] at accessed otherAccessed
          rcases accessed with ⟨_, _, rfl⟩
          rcases otherAccessed with ⟨_, _, rfl⟩
          exact ⟨storage, capacity, disabled, waits,
            congrArg (List.eraseIdx · completion) completed⟩
  · beta_reduce
    split
    · trivial
    · next wait _ => exact obeys_cancel wait.ec wait.expiresAt

variable (V Request IoContext) in
theorem obeys : (discipline V Request IoContext).Obeys (rule V Request IoContext) := by
  intro routine
  cases routine with
  | get ioContext handler waitDuration now pushedAt =>
      exact obeys_getBody ioContext handler waitDuration now pushedAt
  | recycle resIt now =>
      refine obeys_giveBack ?_ fun queued => ?_
      · intro impl callbacks
        exact onUsedCell_callbacks impl callbacks resIt fun storage cell member =>
          storage.recycle cell member now
      · refine ⟨mayAccess_pool (fun _ _ => rfl) ?_, fun impl => ?_⟩
        · intro impl callbacks
          cases resIt <;> rfl
        · exact obeys_serveQueued queued resIt (impl.isValid resIt now)
  | waste resIt =>
      refine obeys_giveBack ?_ fun queued => obeys_serveQueued queued resIt false
      intro impl callbacks
      exact onUsedCell_callbacks impl callbacks resIt fun storage cell member =>
        storage.waste cell member
  | disable =>
      exact ⟨by simp [rule, discipline, heldAt], mayAccess_pool (fun _ _ => rfl) fun _ _ => rfl,
        fun _ => trivial⟩
  | cancelQueued => exact obeys_cancelQueuedBody
  | invalidate =>
      exact ⟨by simp [rule, discipline, heldAt], mayAccess_pool (fun _ _ => rfl) fun _ _ => rfl,
        fun _ => trivial⟩
  | size | available | used => exact obeys_observe_pool (fun _ _ => rfl) fun _ => trivial
  | stats => exact obeys_statsBody
  | queueSize | queueEmpty => exact obeys_report_queue fun _ _ _ => rfl
  | returned => trivial
  | fire ioContext wait => exact obeys_fireBody ioContext wait
  | deliver completion => exact obeys_deliverBody completion

end Routine

namespace Threads

variable {V Request IoContext : Type} [DecidableEq IoContext]

theorem reachedElsewhere {s : Threads V Request IoContext}
    (reached : (system V Request IoContext).ReachableVia DisablesElsewhere s) :
    (system V Request IoContext).ReachableVia
      (State.DispatchesElsewhere (Routine.discipline V Request IoContext)) s :=
  reached.mono fun _ _ => disablesElsewhere_iff.mp

end Threads

end ResourcePool.Async
