import ResourcePool.Async.Queue.Coherence
import ResourcePool.Handle
import ResourcePool.Storage.History

/-!
# The implementation of the asynchronous pool

The member functions of `async::detail::pool_impl`, one definition for each section which
runs under a mutex. `get` has two sections: in the first, under the mutex of the pool, it
looks at `_disabled` and tries to lease a cell; the second is the push into the queue,
which has a mutex of its own.

`recycle` and `waste` clear a value after they have released the mutex. It is that of a
used cell, at which no other section looks, so it is cleared with the section.

What a section posts or dispatches is part of its result, as a `Submission`. The handlers
which wrap the handler of a request differ in the arguments they call it with.

A section is undefined, `none`, where it gives back a cell which is not in the used list.
-/

namespace ResourcePool

/-- What a strategy does to the storage when the cell is handed over to a request. -/
def Storage.handOn {V : Type} (s : Storage V) (strategy : Strategy) (cell : CellId)
    (now : TimePoint) : Storage V :=
  match strategy with
  | .recycle => s.handOver cell now
  | .waste => s.resetValue cell

namespace Async

/-- The handlers which are submitted to an `io_context`. The wrapped handler is `none` if
it was moved from. -/
inductive Task (Request : Type) where
  | onListIteratorHandler (error : Error.Code) (listIterator : CellIterator)
      (handler : Option Request)
  | onErrorHandler (error : Error.Code) (handler : Option Request)
  | onServeQueuedHandler (listIterator : CellIterator) (handler : Option Request)
  | expiredHandler (handler : Option Request)
  deriving DecidableEq

namespace Task

variable {Request : Type}

def handler : Task Request → Option Request
  | onListIteratorHandler _ _ handler => handler
  | onErrorHandler _ handler => handler
  | onServeQueuedHandler _ handler => handler
  | expiredHandler handler => handler

def error : Task Request → Error.Code
  | onListIteratorHandler error _ _ => error
  | onErrorHandler error _ => error
  | onServeQueuedHandler _ _ => .ok
  | expiredHandler _ => .getResourceTimeout

def listIterator : Task Request → CellIterator
  | onListIteratorHandler _ listIterator _ => listIterator
  | onErrorHandler _ _ => .singular
  | onServeQueuedHandler listIterator _ => listIterator
  | expiredHandler _ => .singular

end Task

/-- A handler which was posted or dispatched to an `io_context`. -/
structure Submission (Request IoContext : Type) where
  ioContext : IoContext
  task : Task Request
  deriving DecidableEq

namespace Submission

variable {Request IoContext : Type}

/-- The completion of a queued request of a pool which is disabled. -/
def disabledPending (pending : Container.Pending Request IoContext TimePoint) :
    Submission Request IoContext :=
  ⟨pending.context, .onErrorHandler .disabled (some pending.item)⟩

/-- The completion of a queued request whose deadline has come. -/
def expiredPending (pending : Container.Pending Request IoContext TimePoint) :
    Submission Request IoContext :=
  ⟨pending.context, .expiredHandler (some pending.item)⟩

end Submission

/-- A call of `get` which has left its first section for the push. -/
structure UnlockedGet (Request IoContext : Type) where
  ioContext : IoContext
  request : Request
  waitDuration : Duration
  deriving DecidableEq

inductive GetOutcome (Request IoContext : Type) where
  | submitted (submission : Submission Request IoContext)
  | unlocked (get : UnlockedGet Request IoContext)
  deriving DecidableEq

structure PoolImpl (V Request IoContext : Type) where
  storage : Storage V
  capacity : ℕ
  callbacks : CoherentQueue Request IoContext
  disabled : Bool

namespace PoolImpl

variable {V Request IoContext : Type} [DecidableEq IoContext]

def constructed (capacity queueCapacity : ℕ) (idleTimeout lifespan : Duration) :
    Except Error.LogicError (PoolImpl V Request IoContext) := do
  let checked ← assertCapacity capacity
  return {
    storage := Storage.empty checked idleTimeout lifespan
    capacity := capacity
    callbacks := CoherentQueue.constructed queueCapacity
    disabled := false }

def generated (capacity : ℕ) (genValue : Fin capacity → V) (queueCapacity : ℕ)
    (idleTimeout lifespan : Duration) (now : TimePoint) :
    Except Error.LogicError (PoolImpl V Request IoContext) := do
  let _ ← assertCapacity capacity
  return {
    storage := Storage.generated capacity genValue idleTimeout lifespan now
    capacity := capacity
    callbacks := CoherentQueue.constructed queueCapacity
    disabled := false }

/-- The constructor from a range, which generates its values one after the other. -/
def ofRange (values : List V) (queueCapacity : ℕ) (idleTimeout lifespan : Duration)
    (now : TimePoint) : Except Error.LogicError (PoolImpl V Request IoContext) :=
  generated values.length values.get queueCapacity idleTimeout lifespan now

/-- The first section of `pool_impl::get` at clock reading `now`. -/
def get (impl : PoolImpl V Request IoContext) (ioContext : IoContext) (handler : Request)
    (waitDuration : Duration) (now : TimePoint) :
    PoolImpl V Request IoContext × GetOutcome Request IoContext :=
  if impl.disabled then
    (impl, .submitted ⟨ioContext, .onListIteratorHandler .disabled .singular (some handler)⟩)
  else
    let (cell, storage) := impl.storage.lease now
    let impl := { impl with storage := storage }
    match cell with
    | some cell =>
        (impl, .submitted ⟨ioContext, .onListIteratorHandler .ok (.node cell) (some handler)⟩)
    | none =>
        if waitDuration = Ticks.zero then
          (impl, .submitted
            ⟨ioContext, .onListIteratorHandler .getResourceTimeout .singular (some handler)⟩)
        else
          (impl, .unlocked ⟨ioContext, handler, waitDuration⟩)

/-- The push of `pool_impl::get` at clock reading `now`. -/
def push (impl : PoolImpl V Request IoContext) (get : UnlockedGet Request IoContext)
    (now : TimePoint) :
    PoolImpl V Request IoContext × Option (Submission Request IoContext) :=
  let (pushed, wrapped, callbacks) :=
    impl.callbacks.push get.ioContext get.waitDuration get.request now
  let impl := { impl with callbacks := callbacks }
  if pushed then
    (impl, none)
  else
    (impl, some ⟨get.ioContext, .onErrorHandler .requestQueueOverflow wrapped⟩)

/-- `pool_impl::recycle` at clock reading `now`, with the completion it posts. -/
def recycle (impl : PoolImpl V Request IoContext) (resIt : CellIterator) (now : TimePoint) :
    Option (PoolImpl V Request IoContext × Option (Submission Request IoContext)) :=
  match resIt with
  | .singular => none
  | .node cell =>
      if member : cell ∈ impl.storage.used then
        match impl.callbacks.pop with
        | (none, callbacks) =>
            some ({ impl with
              storage := impl.storage.recycle cell member now
              callbacks := callbacks }, none)
        | (some queued, callbacks) =>
            some ({ impl with
              storage := impl.storage.handOver cell now
              callbacks := callbacks },
              some ⟨queued.ioContext, .onServeQueuedHandler (.node cell) queued.request⟩)
      else none

/-- `pool_impl::waste`, with the completion it posts. -/
def waste (impl : PoolImpl V Request IoContext) (resIt : CellIterator) :
    Option (PoolImpl V Request IoContext × Option (Submission Request IoContext)) :=
  match resIt with
  | .singular => none
  | .node cell =>
      if member : cell ∈ impl.storage.used then
        match impl.callbacks.pop with
        | (none, callbacks) =>
            some ({ impl with
              storage := impl.storage.waste cell member
              callbacks := callbacks }, none)
        | (some queued, callbacks) =>
            some ({ impl with
              storage := impl.storage.resetValue cell
              callbacks := callbacks },
              some ⟨queued.ioContext, .onServeQueuedHandler (.node cell) queued.request⟩)
      else none

/-- `recycle` or `waste`, as a strategy says. -/
def giveBack (impl : PoolImpl V Request IoContext) (strategy : Strategy) (resIt : CellIterator)
    (now : TimePoint) :
    Option (PoolImpl V Request IoContext × Option (Submission Request IoContext)) :=
  match strategy with
  | .recycle => impl.recycle resIt now
  | .waste => impl.waste resIt

/-- The loop of `pool_impl::disable`, which pops until nothing is left. -/
def drain : ℕ → CoherentQueue Request IoContext →
    List (Submission Request IoContext) × CoherentQueue Request IoContext
  | 0, callbacks => ([], callbacks)
  | fuel + 1, callbacks =>
      match callbacks.pop with
      | (none, callbacks) => ([], callbacks)
      | (some queued, callbacks) =>
          let (others, callbacks) := drain fuel callbacks
          (⟨queued.ioContext, .onErrorHandler .disabled queued.request⟩ :: others, callbacks)

/-- `pool_impl::disable`, with the completions it dispatches. The queue holds fewer
requests in each round of the loop. -/
def disable (impl : PoolImpl V Request IoContext) :
    PoolImpl V Request IoContext × List (Submission Request IoContext) :=
  let (submissions, callbacks) := drain (impl.callbacks.size + 1) impl.callbacks
  ({ impl with callbacks := callbacks, disabled := true }, submissions)

def invalidate (impl : PoolImpl V Request IoContext) : PoolImpl V Request IoContext :=
  { impl with storage := impl.storage.invalidate }

/-- The handler of a completed wait of the queue runs: the completions it posts. -/
def deliver (impl : PoolImpl V Request IoContext) (completion : ℕ) :
    Option (PoolImpl V Request IoContext × List (Submission Request IoContext)) := do
  let (expired, callbacks) ← impl.callbacks.deliver completion
  return ({ impl with callbacks := callbacks },
    expired.map fun value => ⟨value.ioContext, .expiredHandler value.request⟩)

/-- An armed wait of the queue completes. -/
def fire (impl : PoolImpl V Request IoContext) (ioContext : IoContext) (wait : ℕ) :
    Option (PoolImpl V Request IoContext) := do
  let callbacks ← impl.callbacks.fire ioContext wait
  return { impl with callbacks := callbacks }

def size (impl : PoolImpl V Request IoContext) : ℕ :=
  impl.storage.stats.available + impl.storage.stats.used

/-! ### What the sections do -/

omit [DecidableEq IoContext] in
/-- The first section of `get`, by its four exits. -/
theorem get_cases (impl : PoolImpl V Request IoContext) (ioContext : IoContext)
    (handler : Request) (waitDuration : Duration) (now : TimePoint) :
    (impl.disabled = true ∧
      impl.get ioContext handler waitDuration now =
        (impl, .submitted
          ⟨ioContext, .onListIteratorHandler .disabled .singular (some handler)⟩)) ∨
    (impl.disabled = false ∧ ∃ cell, (impl.storage.lease now).1 = some cell ∧
      impl.get ioContext handler waitDuration now =
        ({ impl with storage := (impl.storage.lease now).2 }, .submitted
          ⟨ioContext, .onListIteratorHandler .ok (.node cell) (some handler)⟩)) ∨
    (impl.disabled = false ∧ impl.storage.NoFreeCell ∧ waitDuration = Ticks.zero ∧
      impl.get ioContext handler waitDuration now =
        (impl, .submitted
          ⟨ioContext, .onListIteratorHandler .getResourceTimeout .singular (some handler)⟩)) ∨
    (impl.disabled = false ∧ impl.storage.NoFreeCell ∧ waitDuration ≠ Ticks.zero ∧
      impl.get ioContext handler waitDuration now =
        (impl, .unlocked ⟨ioContext, handler, waitDuration⟩)) := by
  by_cases disabled : impl.disabled = true
  · exact Or.inl ⟨disabled, by simp only [get, if_pos disabled]⟩
  · have active : impl.disabled = false := by simpa using disabled
    right
    cases leased : (impl.storage.lease now).1 with
    | some cell => exact Or.inl ⟨active, cell, rfl, by simp only [get, if_neg disabled, leased]⟩
    | none =>
        rcases Storage.lease_none leased with ⟨full, unchanged⟩
        right
        by_cases zero : waitDuration = Ticks.zero
        · exact Or.inl ⟨active, full, zero,
            by simp only [get, if_neg disabled, unchanged, if_pos zero]⟩
        · exact Or.inr ⟨active, full, zero,
            by simp only [get, if_neg disabled, unchanged, if_neg zero]⟩

theorem push_cases (impl : PoolImpl V Request IoContext) (get : UnlockedGet Request IoContext)
    (now : TimePoint) :
    (impl.callbacks.capacity ≤ impl.callbacks.contents.length ∧
      impl.push get now =
        (impl, some
          ⟨get.ioContext, .onErrorHandler .requestQueueOverflow (some get.request)⟩)) ∨
    (impl.callbacks.contents.length < impl.callbacks.capacity ∧ ∃ callbacks,
      impl.push get now = ({ impl with callbacks := callbacks }, none) ∧
      callbacks.capacity = impl.callbacks.capacity ∧
      callbacks.contents = impl.callbacks.contents ++
        [⟨get.request, get.ioContext, TimeTraits.add now get.waitDuration⟩]) := by
  rcases impl.callbacks.push_cases get.ioContext get.waitDuration get.request now with
    ⟨full, refused⟩ | ⟨room, callbacks, accepted, capacity, appended⟩
  · exact Or.inl ⟨full, by simp [push, refused]⟩
  · exact Or.inr ⟨room, callbacks, by simp [push, accepted], capacity, appended⟩

/-- A cell is given back to the storage when no request is queued, and otherwise handed
over to the oldest one. -/
theorem giveBack_cases (impl : PoolImpl V Request IoContext) (strategy : Strategy)
    {cell : CellId} (member : cell ∈ impl.storage.used) (now : TimePoint) :
    (impl.callbacks.contents = [] ∧
      impl.giveBack strategy (.node cell) now =
        some ({ impl with storage := impl.storage.takeBack strategy cell member now }, none)) ∨
    ∃ oldest rest callbacks, impl.callbacks.contents = oldest :: rest ∧
      impl.giveBack strategy (.node cell) now =
        some ({ impl with
          storage := impl.storage.handOn strategy cell now
          callbacks := callbacks },
          some ⟨oldest.context, .onServeQueuedHandler (.node cell) (some oldest.item)⟩) ∧
      callbacks.capacity = impl.callbacks.capacity ∧ callbacks.contents = rest := by
  rcases impl.callbacks.pop_cases with
    ⟨isEmpty, popped⟩ | ⟨oldest, rest, callbacks, front, popped, capacity, remaining⟩
  · refine Or.inl ⟨isEmpty, ?_⟩
    cases strategy <;>
      simp [giveBack, recycle, waste, member, popped, Storage.takeBack]
  · refine Or.inr ⟨oldest, rest, callbacks, front, ?_, capacity, remaining⟩
    cases strategy <;>
      simp [giveBack, recycle, waste, member, popped, Storage.handOn, Indexes.handedOut]

theorem giveBack_none {impl : PoolImpl V Request IoContext} {strategy : Strategy}
    {resIt : CellIterator} {now : TimePoint}
    (undefined : impl.giveBack strategy resIt now = none) :
    ∀ cell, resIt = .node cell → cell ∉ impl.storage.used := by
  rintro cell rfl member
  rcases impl.giveBack_cases strategy member now with
    ⟨_, isDefined⟩ | ⟨_, _, _, _, isDefined, _⟩ <;>
  · rw [isDefined] at undefined
    contradiction

theorem used_of_giveBack {impl : PoolImpl V Request IoContext} {strategy : Strategy}
    {resIt : CellIterator} {now : TimePoint}
    {result : PoolImpl V Request IoContext × Option (Submission Request IoContext)}
    (isDefined : impl.giveBack strategy resIt now = some result) :
    ∃ cell, resIt = .node cell ∧ cell ∈ impl.storage.used := by
  cases resIt with
  | singular => cases strategy <;> simp [giveBack, recycle, waste] at isDefined
  | node cell =>
      refine ⟨cell, rfl, ?_⟩
      cases strategy <;>
        simp only [giveBack, recycle, waste, Option.dite_none_right_eq_some] at isDefined <;>
        exact isDefined.1

/-- The loop of `disable` takes out all requests, oldest first. -/
theorem drain_spec {fuel : ℕ} {callbacks : CoherentQueue Request IoContext}
    (enough : callbacks.contents.length < fuel) :
    (drain fuel callbacks).1 = callbacks.contents.map Submission.disabledPending ∧
    (drain fuel callbacks).2.contents = [] ∧
    (drain fuel callbacks).2.capacity = callbacks.capacity := by
  induction fuel generalizing callbacks with
  | zero => omega
  | succ fuel ih =>
      rcases callbacks.pop_cases with
        ⟨isEmpty, popped⟩ | ⟨oldest, rest, after, front, popped, capacity, remaining⟩
      · simp [drain, popped, isEmpty]
      · rw [front, List.length_cons] at enough
        have fewer : after.contents.length < fuel := by
          rw [remaining]
          omega
        rcases ih fewer with ⟨others, emptied, capacityKept⟩
        simp only [drain, popped, front, List.map_cons]
        refine ⟨?_, emptied, capacityKept.trans capacity⟩
        rw [others, remaining]
        rfl

theorem disable_spec (impl : PoolImpl V Request IoContext) :
    ∃ callbacks, impl.disable =
      ({ impl with callbacks := callbacks, disabled := true },
        impl.callbacks.contents.map Submission.disabledPending) ∧
      callbacks.contents = [] ∧ callbacks.capacity = impl.callbacks.capacity := by
  have enough : impl.callbacks.contents.length < impl.callbacks.size + 1 := by
    rw [Queue.size, impl.callbacks.coherent.size_eq]
    exact Nat.lt_succ_self _
  rcases drain_spec enough with ⟨submissions, emptied, capacity⟩
  exact ⟨_, by simp only [disable, submissions], emptied, capacity⟩

theorem deliver_spec {impl after : PoolImpl V Request IoContext} {completion : ℕ}
    {submissions : List (Submission Request IoContext)}
    (delivered : impl.deliver completion = some (after, submissions)) :
    ∃ callbacks leaving, after = { impl with callbacks := callbacks } ∧
      submissions.Perm (leaving.map Submission.expiredPending) ∧
      (leaving ++ callbacks.contents).Perm impl.callbacks.contents ∧
      callbacks.contents.Sublist impl.callbacks.contents ∧
      callbacks.capacity = impl.callbacks.capacity := by
  simp only [deliver, Option.bind_eq_bind, Option.bind_eq_some_iff, Option.pure_def,
    Option.some.injEq, Prod.mk.injEq] at delivered
  rcases delivered with ⟨⟨posted, callbacks⟩, isDelivered, rfl, rfl⟩
  rcases CoherentQueue.deliver_cases isDelivered with ⟨leaving, perm, split, sublist, capacity⟩
  refine ⟨callbacks, leaving, rfl, ?_, split, sublist, capacity⟩
  refine (perm.map _).trans (List.Perm.of_eq ?_)
  rw [List.map_map]
  rfl

theorem fire_spec {impl after : PoolImpl V Request IoContext} {ioContext : IoContext} {wait : ℕ}
    (fired : impl.fire ioContext wait = some after) :
    ∃ callbacks, after = { impl with callbacks := callbacks } ∧
      callbacks.contents = impl.callbacks.contents ∧
      callbacks.capacity = impl.callbacks.capacity := by
  simp only [fire, Option.bind_eq_bind, Option.bind_eq_some_iff, Option.pure_def,
    Option.some.injEq] at fired
  rcases fired with ⟨callbacks, isFired, rfl⟩
  exact ⟨callbacks, rfl, CoherentQueue.fire_contents isFired⟩

end PoolImpl

end Async

end ResourcePool
