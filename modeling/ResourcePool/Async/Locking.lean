import ResourcePool.Async.PoolImpl
import ResourcePool.Concurrency.Threads

/-!
# Where the asynchronous pool holds its mutexes

The member functions of `pool_impl` and the handler of a timer of its queue, step by step
as threads execute them: each lock and unlock of the mutexes of the pool and of the queue,
the accesses between them, and the submissions of completions. A call which only reads ends
as the routine `returned` with what it has read.

The loop of `disable` dispatches completions under the mutex of the pool. A thread which
runs the `io_context` of a queued request may so run its handler there.
-/

namespace ResourcePool.Async

open Concurrency Transition

/-- `pool_impl::_mutex` and `queue::_mutex`. -/
inductive PoolMutex where
  | pool
  | queue
  deriving DecidableEq

/-- `async::stats`. -/
structure Stats where
  size : ℕ
  available : ℕ
  used : ℕ
  queueSize : ℕ
  deriving DecidableEq

/-- What the member functions which only read return. -/
inductive Reading where
  | count (value : ℕ)
  | stats (stats : Stats)
  | flag (value : Bool)
  deriving DecidableEq

/-- The calls of a pool with their arguments and clock readings. The destructor of
`async::pool` calls `disable`. -/
inductive Routine (Request IoContext : Type) where
  | get (ioContext : IoContext) (handler : Request) (waitDuration : Duration)
      (now pushedAt : TimePoint)
  | recycle (resIt : CellIterator) (now : TimePoint)
  | waste (resIt : CellIterator)
  | disable
  /-- The loop of `disable`. -/
  | cancelQueued
  | invalidate
  | size
  | available
  | used
  | stats
  | queueSize
  | queueEmpty
  /-- The return to the caller. -/
  | returned (reading : Reading)
  /-- A wait of the timer of an `io_context` completes. -/
  | fire (ioContext : IoContext) (wait : ℕ)
  /-- The handler of a completed wait. -/
  | deliver (completion : ℕ)

namespace PoolImpl

variable {V Request IoContext : Type}

/-- An access through an iterator, which is undefined if it is not to a used cell. -/
def onUsedCell (impl : PoolImpl V Request IoContext) (resIt : CellIterator)
    (effect : (cell : CellId) → cell ∈ impl.storage.used → Storage V) :
    Option (PoolImpl V Request IoContext) :=
  match resIt with
  | .singular => none
  | .node cell =>
      if member : cell ∈ impl.storage.used then
        some { impl with storage := effect cell member }
      else none

def isValid (impl : PoolImpl V Request IoContext) (resIt : CellIterator) (now : TimePoint) :
    Bool :=
  match resIt with
  | .singular => false
  | .node cell => impl.storage.isValid cell now

end PoolImpl

namespace Routine

variable {V Request IoContext : Type} [DecidableEq IoContext]

abbrev Body (V Request IoContext : Type) :=
  Program (PoolImpl V Request IoContext) PoolMutex (Submission Request IoContext)
    (Routine Request IoContext)

def read (next : PoolImpl V Request IoContext → Body V Request IoContext) :
    Body V Request IoContext :=
  .access some next

def write (effect : PoolImpl V Request IoContext → PoolImpl V Request IoContext)
    (next : Body V Request IoContext) : Body V Request IoContext :=
  .access (fun impl => some (effect impl)) fun _ => next

/-- `_callbacks->pop()`, and what is done with its result. -/
def pop (next : Option (QueuedValue Request IoContext) → Body V Request IoContext) :
    Body V Request IoContext :=
  .lock .queue <|
  .access (fun impl => some { impl with callbacks := impl.callbacks.pop.2 }) fun impl =>
  .unlock .queue <|
  next impl.callbacks.pop.1

/-- `_callbacks->push()`, and the completion of a request which does not fit. -/
def push (unlocked : UnlockedGet Request IoContext) (now : TimePoint) : Body V Request IoContext :=
  .lock .queue <|
  .access (fun impl => some (impl.push unlocked now).1) fun impl =>
  .unlock .queue <|
  match (impl.push unlocked now).2 with
  | none => .done
  | some submission => .post submission .done

def getBody (ioContext : IoContext) (handler : Request) (waitDuration : Duration)
    (now pushedAt : TimePoint) : Body V Request IoContext :=
  .lock .pool <|
  .access (fun impl => some (impl.get ioContext handler waitDuration now).1) fun impl =>
  .unlock .pool <|
  match (impl.get ioContext handler waitDuration now).2 with
  | .submitted submission =>
      if impl.disabled then .dispatch submission .done else .post submission .done
  | .unlocked unlocked => push unlocked pushedAt

/-- `recycle` and `waste` look for a queued request first. -/
def giveBack (release : PoolImpl V Request IoContext → Option (PoolImpl V Request IoContext))
    (serve : QueuedValue Request IoContext → Body V Request IoContext) :
    Body V Request IoContext :=
  .lock .pool <|
  pop fun queued =>
    match queued with
    | none => .access release fun _ => .unlock .pool .done
    | some queued => serve queued

/-- The end of `recycle` and `waste`, when a request was queued. -/
def serveQueued (queued : QueuedValue Request IoContext) (resIt : CellIterator) (valid : Bool) :
    Body V Request IoContext :=
  .unlock .pool <|
  .access (fun impl => impl.onUsedCell resIt fun cell _ =>
    if valid then impl.storage else impl.storage.resetValue cell) fun _ =>
  .post ⟨queued.ioContext, .onServeQueuedHandler resIt queued.request⟩ .done

def recycleBody (resIt : CellIterator) (now : TimePoint) : Body V Request IoContext :=
  giveBack
    (fun impl => impl.onUsedCell resIt fun cell member => impl.storage.recycle cell member now)
    fun queued => read fun impl => serveQueued queued resIt (impl.isValid resIt now)

def wasteBody (resIt : CellIterator) : Body V Request IoContext :=
  giveBack (fun impl => impl.onUsedCell resIt fun cell member => impl.storage.waste cell member)
    fun queued => serveQueued queued resIt false

def disableBody : Body V Request IoContext :=
  .lock .pool <|
  write (fun impl => { impl with disabled := true }) <|
  .jump .cancelQueued

def cancelQueuedBody : Body V Request IoContext :=
  pop fun queued =>
    match queued with
    | none => .unlock .pool .done
    | some queued =>
        .dispatch ⟨queued.ioContext, .onErrorHandler .disabled queued.request⟩ <|
        .jump .cancelQueued

/-- A reading of the state under a mutex. -/
def observe {Result : Type} (mutex : PoolMutex) (look : PoolImpl V Request IoContext → Result)
    (next : Result → Body V Request IoContext) : Body V Request IoContext :=
  .lock mutex <|
  read fun impl =>
  .unlock mutex <|
  next (look impl)

/-- A reading which is returned to the caller. -/
def report {Result : Type} (mutex : PoolMutex) (look : PoolImpl V Request IoContext → Result)
    (reading : Result → Reading) : Body V Request IoContext :=
  observe mutex look fun result =>
  .jump (.returned (reading result))

def sizeBody : Body V Request IoContext :=
  report .pool (fun impl => impl.storage.stats) fun stats => .count (stats.available + stats.used)

def availableBody : Body V Request IoContext :=
  report .pool (fun impl => impl.storage.stats.available) .count

def usedBody : Body V Request IoContext :=
  report .pool (fun impl => impl.storage.stats.used) .count

def statsBody : Body V Request IoContext :=
  observe .pool (fun impl => impl.storage.stats) fun stats =>
  report .queue (fun impl => impl.callbacks.size) fun queueSize =>
  .stats ⟨stats.available + stats.used, stats.available, stats.used, queueSize⟩

def queueSizeBody : Body V Request IoContext :=
  report .queue (fun impl => impl.callbacks.size) .count

def queueEmptyBody : Body V Request IoContext :=
  report .queue (fun impl => impl.callbacks.empty) .flag

def fireBody (ioContext : IoContext) (wait : ℕ) : Body V Request IoContext :=
  .access (fun impl => impl.fire ioContext wait) fun _ => .done

/-- `queue::cancel`. -/
def cancel (ec : WaitResult) (expiresAt : TimePoint) : Body V Request IoContext :=
  match ec with
  | .operationAborted => .done
  | .success =>
      .lock .queue <|
      .access (fun impl =>
        some { impl with callbacks := (impl.callbacks.cancel .success expiresAt).2 }) fun impl =>
      Program.postEach ((impl.callbacks.cancel .success expiresAt).1.map fun value =>
        ⟨value.ioContext, .expiredHandler value.request⟩) <|
      .unlock .queue .done

/-- The handler is called with what its wait has completed with. -/
def deliverBody (completion : ℕ) : Body V Request IoContext :=
  .access (fun impl => impl.callbacks.completed[completion]?.map fun _ =>
    { impl with callbacks :=
      { impl.callbacks with completed := impl.callbacks.completed.eraseIdx completion } })
    fun impl =>
  match impl.callbacks.completed[completion]? with
  | none => .done
  | some wait => cancel wait.ec wait.expiresAt

def body : Routine Request IoContext → Body V Request IoContext
  | get ioContext handler waitDuration now pushedAt =>
      getBody ioContext handler waitDuration now pushedAt
  | recycle resIt now => recycleBody resIt now
  | waste resIt => wasteBody resIt
  | disable => disableBody
  | cancelQueued => cancelQueuedBody
  | invalidate => .lock .pool <| write PoolImpl.invalidate <| .unlock .pool .done
  | size => sizeBody
  | available => availableBody
  | used => usedBody
  | stats => statsBody
  | queueSize => queueSizeBody
  | queueEmpty => queueEmptyBody
  | returned _ => .done
  | fire ioContext wait => fireBody ioContext wait
  | deliver completion => deliverBody completion

def callable : Routine Request IoContext → Bool
  | cancelQueued | returned _ => false
  | _ => true

variable (V Request IoContext) in
def code :
    Code (PoolImpl V Request IoContext) PoolMutex (Submission Request IoContext) IoContext
      (Routine Request IoContext) where
  body := body
  contextOf := Submission.ioContext
  callable := callable

/-- Only the loop of `disable` begins with a mutex, and only it dispatches with one. -/
def heldAt : Routine Request IoContext → List PoolMutex
  | cancelQueued => [.pool]
  | _ => []

def dispatchesLocked : Routine Request IoContext → Bool
  | cancelQueued => true
  | _ => false

theorem disciplined_pop {locked : Bool} {held : List PoolMutex}
    {next : Option (QueuedValue Request IoContext) → Body V Request IoContext}
    (free : .queue ∉ held) (disciplined : ∀ queued, (next queued).Disciplined heldAt locked held) :
    (pop next).Disciplined heldAt locked held :=
  ⟨free, fun _ => ⟨rfl, disciplined _⟩⟩

theorem disciplined_push (unlocked : UnlockedGet Request IoContext) (now : TimePoint)
    (locked : Bool) :
    (push unlocked now : Body V Request IoContext).Disciplined heldAt locked [] := by
  refine ⟨by simp, fun impl => ⟨rfl, ?_⟩⟩
  cases (impl.push unlocked now).2 with
  | none => rfl
  | some submission => rfl

theorem disciplined_getBody (ioContext : IoContext) (handler : Request)
    (waitDuration : Duration) (now pushedAt : TimePoint) :
    (getBody ioContext handler waitDuration now pushedAt : Body V Request IoContext).Disciplined
      heldAt false [] := by
  refine ⟨by simp, fun impl => ⟨rfl, ?_⟩⟩
  cases (impl.get ioContext handler waitDuration now).2 with
  | submitted submission =>
      by_cases disabled : impl.disabled = true
      · simp [disabled, Program.Disciplined]
      · simp [disabled, Program.Disciplined]
  | unlocked unlocked => exact disciplined_push unlocked pushedAt false

theorem disciplined_giveBack
    {release : PoolImpl V Request IoContext → Option (PoolImpl V Request IoContext)}
    {serve : QueuedValue Request IoContext → Body V Request IoContext}
    (disciplined : ∀ queued, (serve queued).Disciplined heldAt false [.pool]) :
    (giveBack release serve).Disciplined heldAt false [] := by
  refine ⟨by simp, disciplined_pop (by simp) ?_⟩
  intro queued
  cases queued with
  | none => exact fun _ => ⟨rfl, rfl⟩
  | some queued => exact disciplined queued

theorem disciplined_cancelQueuedBody :
    (cancelQueuedBody : Body V Request IoContext).Disciplined heldAt true [.pool] := by
  apply disciplined_pop (by simp)
  intro queued
  cases queued with
  | none => exact ⟨rfl, rfl⟩
  | some queued => exact ⟨by simp, rfl⟩

omit [DecidableEq IoContext] in
theorem disciplined_observe {Result : Type} {mutex : PoolMutex}
    {look : PoolImpl V Request IoContext → Result} {next : Result → Body V Request IoContext}
    (disciplined : ∀ result, (next result).Disciplined heldAt false []) :
    (observe mutex look next).Disciplined heldAt false [] :=
  ⟨by simp, fun impl => ⟨rfl, disciplined (look impl)⟩⟩

omit [DecidableEq IoContext] in
theorem disciplined_report {Result : Type} {mutex : PoolMutex}
    {look : PoolImpl V Request IoContext → Result} {reading : Result → Reading} :
    (report mutex look reading).Disciplined heldAt false [] :=
  disciplined_observe fun _ => rfl

omit [DecidableEq IoContext] in
theorem disciplined_statsBody :
    (statsBody : Body V Request IoContext).Disciplined heldAt false [] :=
  disciplined_observe fun _ => disciplined_report

theorem disciplined_deliverBody (completion : ℕ) :
    (deliverBody completion : Body V Request IoContext).Disciplined heldAt false [] := by
  simp only [deliverBody, Program.Disciplined]
  intro impl
  split
  · rfl
  · next wait _ =>
      simp only [cancel]
      split
      · rfl
      · exact ⟨by simp, fun impl => Program.disciplined_postEach _ ⟨rfl, rfl⟩⟩

variable (V Request IoContext) in
def discipline : Discipline (code V Request IoContext) where
  heldAt := heldAt
  dispatchesLocked := dispatchesLocked
  callable routine isCallable := by
    cases routine with
    | cancelQueued | returned => contradiction
    | _ => rfl
  disciplined routine := by
    cases routine with
    | get ioContext handler waitDuration now pushedAt =>
        exact disciplined_getBody ioContext handler waitDuration now pushedAt
    | recycle resIt now =>
        exact disciplined_giveBack fun _ _ => ⟨rfl, fun _ => rfl⟩
    | waste resIt => exact disciplined_giveBack fun _ => ⟨rfl, fun _ => rfl⟩
    | disable => exact ⟨by simp [heldAt], fun _ => rfl⟩
    | cancelQueued => exact disciplined_cancelQueuedBody
    | invalidate => exact ⟨by simp [heldAt], fun _ => ⟨rfl, rfl⟩⟩
    | size | available | used | queueSize | queueEmpty => exact disciplined_report
    | stats => exact disciplined_statsBody
    | returned => rfl
    | fire ioContext wait => exact fun _ => rfl
    | deliver completion => exact disciplined_deliverBody completion

end Routine

/-- The threads of a program which uses one pool, with the calls they make. -/
abbrev Threads (V Request IoContext : Type) :=
  State (PoolImpl V Request IoContext) PoolMutex (Submission Request IoContext) IoContext
    (Routine Request IoContext)

namespace Threads

variable {V Request IoContext : Type} [DecidableEq IoContext]

variable (V Request IoContext) in
def system :
    System (Threads V Request IoContext)
      (Concurrency.Event IoContext (Routine Request IoContext)) :=
  State.system (Routine.code V Request IoContext)

/-- The completion which a call of `disable` is the next to dispatch. -/
def cancelling (s : Threads V Request IoContext) (thread : ThreadId) :
    Option (Submission Request IoContext) :=
  match s.dispatching thread with
  | some (.cancelQueued, submission) => some submission
  | _ => none

/-- No call of `disable` comes to cancel a request whose `io_context` its thread runs. -/
def DisablesElsewhere (s : Threads V Request IoContext) :
    Concurrency.Event IoContext (Routine Request IoContext) → Prop
  | .proceed thread _ => ∀ submission ∈ s.cancelling thread,
      s.runs thread submission.ioContext = false
  | _ => True

instance : DecidableRel (DisablesElsewhere : Threads V Request IoContext → _ → Prop)
  | s, .proceed thread _ => inferInstanceAs (Decidable (∀ submission ∈ s.cancelling thread,
      s.runs thread submission.ioContext = false))
  | _, .call .. | _, .enter .. | _, .leave _ | _, .handle .. | _, .finish _ => .isTrue trivial

theorem disablesElsewhere_iff {s : Threads V Request IoContext}
    {event : Concurrency.Event IoContext (Routine Request IoContext)} :
    s.DisablesElsewhere event ↔
      State.DispatchesElsewhere (Routine.discipline V Request IoContext) s event := by
  cases event with
  | proceed thread inside =>
      simp only [DisablesElsewhere, State.DispatchesElsewhere, cancelling]
      cases s.dispatching thread with
      | none => simp
      | some dispatched =>
          rcases dispatched with ⟨routine, submission⟩
          cases routine with
          | cancelQueued =>
              simp [Routine.discipline, Routine.dispatchesLocked, Routine.code]
          | _ => simp [Routine.discipline, Routine.dispatchesLocked]
  | _ => exact Iff.rfl

/--
As long as no call of `disable` comes to cancel a request whose `io_context` its own thread
runs, no handler runs in a thread which owns a mutex of the pool or of its queue, and no
thread tries to lock a mutex which it owns. The first call of `disable` which does come to
cancel such a request may run its handler under the mutex of the pool.
-/
theorem runsHandlersUnlocked {s : Threads V Request IoContext}
    (reached : (system V Request IoContext).ReachableVia DisablesElsewhere s) :
    s.Unlocked ∧
    ∀ thread inside, ¬s.DisablesElsewhere (.proceed thread inside) →
      ∃ after, (system V Request IoContext).step s (.proceed thread true) = some after ∧
        ¬after.Unlocked := by
  have same : (DisablesElsewhere : Threads V Request IoContext → _ → Prop) =
      State.DispatchesElsewhere (Routine.discipline V Request IoContext) := by
    funext s event
    exact propext disablesElsewhere_iff
  rw [same] at reached
  have accounted := Accounted.of_reachableVia reached
  constructor
  · exact accounted.unlocked
  · intro thread inside here
    rw [disablesElsewhere_iff] at here
    exact accounted.not_unlocked_of_dispatch here

/-- Threads which share a pool of one cell without a value, with room for one request. -/
def oneCell : Threads ℕ ℕ Bool :=
  State.initially ⟨Storage.empty 1 Ticks.max Ticks.max, 1, CoherentQueue.constructed 1, false⟩

/-- A thread which runs one `io_context` leases the cell, queues a request for an `io_context`,
and disables the pool up to where it cancels the request. -/
def disablingRun (queued : Bool) : List (Concurrency.Event Bool (Routine ℕ Bool)) :=
  .enter 0 false ::
  .call 0 (.get false 0 Ticks.zero (Ticks.clamp 10) (Ticks.clamp 10)) ::
  List.replicate 5 (.proceed 0 false) ++
  .call 0 (.get queued 1 (Ticks.clamp 5) (Ticks.clamp 11) (Ticks.clamp 11)) ::
  List.replicate 7 (.proceed 0 false) ++
  .call 0 .disable ::
  List.replicate 6 (.proceed 0 false)

theorem runsHandlersUnlocked_elsewhere :
    ∃ s, (system ℕ ℕ Bool).execute oneCell (disablingRun true ++ [.proceed 0 false]) = some s ∧
      s.submitted.map Submission.ioContext = [false, true] ∧ s.Unlocked := by
  have ran : ((system ℕ ℕ Bool).execute oneCell
    (disablingRun true ++ [.proceed 0 false])).isSome := rfl
  refine ⟨_, (Option.some_get ran).symm, rfl, ?_⟩
  exact (runsHandlersUnlocked (System.ReachableVia.execute (.start ⟨_, rfl⟩) (by decide)
    (Option.some_get ran).symm)).1

/-- The handler of the queued request runs under the mutex of the pool, and waits for
itself when it asks for the size. -/
theorem runs_handler_under_mutex :
    ∃ s below asking, (system ℕ ℕ Bool).Reachable s ∧
      (system ℕ ℕ Bool).execute oneCell (disablingRun false ++ [.proceed 0 true]) = some s ∧
      s.stack 0 = .handling ⟨false, .onErrorHandler .disabled (some 1)⟩ :: below ∧
      s.owner .pool = some 0 ∧ ¬s.Unlocked ∧
      (system ℕ ℕ Bool).step s (.call 0 .size) = some asking ∧ ¬asking.Unlocked ∧
      ∀ inside, (system ℕ ℕ Bool).step asking (.proceed 0 inside) = none := by
  have ran : ((system ℕ ℕ Bool).execute oneCell
    (disablingRun false ++ [.proceed 0 true])).isSome := rfl
  have reached : (system ℕ ℕ Bool).Reachable _ :=
    System.execute_reachable ⟨_, rfl⟩ (Option.some_get ran).symm
  refine ⟨_, _, _, reached, (Option.some_get ran).symm, rfl, rfl, ?_, rfl, ?_, fun _ => rfl⟩
  · intro unlocked
    exact unlocked.handling 0 _ _ rfl .pool rfl
  · intro unlocked
    exact unlocked.locking 0 .size .pool _ _ rfl rfl

end Threads

end ResourcePool.Async
