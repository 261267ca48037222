import ResourcePool.Async.Locking

/-!
# The calls of a pool as wholes

A call which no other call interrupts has the effect of the sections of the implementation,
and submits the same completions in the same order.
-/

namespace ResourcePool.Async

open Concurrency Transition

namespace Routine

variable {V Request IoContext : Type} [DecidableEq IoContext]

/-- What a call does as a whole, by the sections of the implementation. -/
def sections (impl : PoolImpl V Request IoContext) :
    Routine Request IoContext →
      Option (PoolImpl V Request IoContext × List (Submission Request IoContext))
  | get ioContext handler waitDuration now pushedAt =>
      match impl.get ioContext handler waitDuration now with
      | (impl, .submitted submission) => some (impl, [submission])
      | (impl, .unlocked unlocked) =>
          some ((impl.push unlocked pushedAt).1, (impl.push unlocked pushedAt).2.toList)
  | recycle resIt now =>
      (impl.recycle resIt now).map fun result => (result.1, result.2.toList)
  | waste resIt => (impl.waste resIt).map fun result => (result.1, result.2.toList)
  | disable => some impl.disable
  | cancelQueued =>
      let (submissions, callbacks) := PoolImpl.drain (impl.callbacks.size + 1) impl.callbacks
      some ({ impl with callbacks := callbacks }, submissions)
  | invalidate => some (impl.invalidate, [])
  | size | available | used | stats | queueSize | queueEmpty | returned _ => some (impl, [])
  | fire ioContext wait => (impl.fire ioContext wait).map fun impl => (impl, [])
  | deliver completion => impl.deliver completion

variable {call : Routine Request IoContext → PoolImpl V Request IoContext →
  Option (PoolImpl V Request IoContext × List (Submission Request IoContext))}

theorem alone_get (impl : PoolImpl V Request IoContext) (ioContext : IoContext) (handler : Request)
    (waitDuration : Duration) (now pushedAt : TimePoint) :
    (getBody ioContext handler waitDuration now pushedAt).alone call impl =
      sections impl (.get ioContext handler waitDuration now pushedAt) := by
  cases result : impl.get ioContext handler waitDuration now with
  | mk after outcome =>
      cases outcome with
      | submitted submission =>
          by_cases disabled : impl.disabled = true
          · simp [getBody, Program.alone, sections, result, disabled]
          · simp [getBody, Program.alone, sections, result, disabled]
      | unlocked unlocked =>
          cases pushed : (after.push unlocked pushedAt).2 with
          | none => simp [getBody, push, Program.alone, sections, result, pushed]
          | some submission => simp [getBody, push, Program.alone, sections, result, pushed]

/-- The two ways of `recycle` and `waste`. -/
theorem alone_giveBack
    (release : PoolImpl V Request IoContext → Option (PoolImpl V Request IoContext))
    (serve : QueuedValue Request IoContext → Body V Request IoContext)
    (impl : PoolImpl V Request IoContext) :
    (giveBack release serve).alone call impl =
      match impl.callbacks.pop with
      | (none, callbacks) =>
          (release { impl with callbacks := callbacks }).map fun impl => (impl, [])
      | (some queued, callbacks) =>
          (serve queued).alone call { impl with callbacks := callbacks } := by
  rcases popped : impl.callbacks.pop with ⟨_ | queued, callbacks⟩
  · simp only [giveBack, pop, Program.alone, popped, Option.bind_some]
    exact (Option.map_eq_bind ..).symm
  · simp only [giveBack, pop, Program.alone, popped, Option.bind_some]

theorem alone_recycle (impl : PoolImpl V Request IoContext) (resIt : CellIterator)
    (now : TimePoint) :
    (recycleBody resIt now).alone call impl = sections impl (.recycle resIt now) := by
  rw [recycleBody, alone_giveBack]
  cases resIt with
  | singular => rcases impl.callbacks.pop with ⟨_ | queued, callbacks⟩ <;> rfl
  | node cell =>
      rcases popped : impl.callbacks.pop with ⟨_ | queued, callbacks⟩ <;>
      by_cases member : cell ∈ impl.storage.used
      · simp [sections, PoolImpl.recycle, PoolImpl.onUsedCell, member, popped]
      · simp [sections, PoolImpl.recycle, PoolImpl.onUsedCell, member]
      · simp [sections, PoolImpl.recycle, PoolImpl.onUsedCell, member, popped, read, serveQueued,
          Program.alone, PoolImpl.isValid, Storage.handOver]
        rfl
      · simp [sections, PoolImpl.recycle, PoolImpl.onUsedCell, member, read, serveQueued,
          Program.alone]

theorem alone_waste (impl : PoolImpl V Request IoContext) (resIt : CellIterator) :
    (wasteBody resIt).alone call impl = sections impl (.waste resIt) := by
  rw [wasteBody, alone_giveBack]
  rcases popped : impl.callbacks.pop with ⟨_ | queued, callbacks⟩ <;>
  cases resIt with
  | singular => rfl
  | node cell =>
      by_cases member : cell ∈ impl.storage.used
      · simp [sections, PoolImpl.waste, PoolImpl.onUsedCell, member, popped, serveQueued,
          Program.alone]
      · simp [sections, PoolImpl.waste, PoolImpl.onUsedCell, member, serveQueued, Program.alone]

theorem alone_deliver (impl : PoolImpl V Request IoContext) (completion : ℕ) :
    (deliverBody completion).alone call impl = sections impl (.deliver completion) := by
  simp only [deliverBody, Program.alone, sections, PoolImpl.deliver, CoherentQueue.deliver]
  cases isCompleted : impl.callbacks.completed[completion]? with
  | none => rfl
  | some wait =>
      rcases wait with ⟨ioContext, ec, expiresAt⟩
      cases ec with
      | operationAborted =>
          simp only [cancel, Program.alone, Option.map_some, Option.bind_some, Option.bind_eq_bind,
            Option.pure_def, CoherentQueue.cancel_aborted, List.map_nil]
      | success =>
          simp only [cancel, Program.alone, Program.alone_postEach, Option.map_some,
            Option.bind_some, Option.bind_eq_bind, Option.pure_def, List.append_nil]

/-- The loop of `disable`, which is in its last round when it pops nothing. -/
theorem alone_cancelQueued {fuel : ℕ} {impl : PoolImpl V Request IoContext}
    (enough : impl.callbacks.contents.length < fuel) :
    (code V Request IoContext).alone fuel .cancelQueued impl =
      some ({ impl with callbacks := (PoolImpl.drain fuel impl.callbacks).2 },
        (PoolImpl.drain fuel impl.callbacks).1) := by
  induction fuel generalizing impl with
  | zero => omega
  | succ fuel ih =>
      change (cancelQueuedBody).alone _ impl = _
      rcases impl.callbacks.pop_cases with
        ⟨isEmpty, popped⟩ | ⟨oldest, rest, after, front, popped, capacity, remaining⟩
      · simp [cancelQueuedBody, pop, Program.alone, PoolImpl.drain, popped]
      · rw [front, List.length_cons] at enough
        have fewer : after.contents.length < fuel := by
          rw [remaining]
          omega
        simp only [cancelQueuedBody, pop, Program.alone, PoolImpl.drain, popped,
          Option.bind_some]
        rw [ih fewer]
        rfl

theorem alone_sections (impl : PoolImpl V Request IoContext)
    (routine : Routine Request IoContext) :
    ∃ fuel, (code V Request IoContext).alone fuel routine impl = sections impl routine := by
  have enough : impl.callbacks.contents.length < impl.callbacks.size + 1 := by
    rw [Queue.size, impl.callbacks.coherent.size_eq]
    exact Nat.lt_succ_self _
  cases routine with
  | get ioContext handler waitDuration now pushedAt => exact ⟨1, alone_get impl ..⟩
  | recycle resIt now => exact ⟨1, alone_recycle impl resIt now⟩
  | waste resIt => exact ⟨1, alone_waste impl resIt⟩
  | disable =>
      have disabled : ({ impl with disabled := true }).callbacks.contents.length <
          impl.callbacks.size + 1 := enough
      exact ⟨impl.callbacks.size + 2, alone_cancelQueued disabled⟩
  | cancelQueued => exact ⟨impl.callbacks.size + 1, alone_cancelQueued enough⟩
  | invalidate => exact ⟨1, rfl⟩
  | size | available | used | stats | queueSize | queueEmpty => exact ⟨2, rfl⟩
  | returned => exact ⟨1, rfl⟩
  | fire ioContext wait => exact ⟨1, (Option.map_eq_bind ..).symm⟩
  | deliver completion => exact ⟨1, alone_deliver impl completion⟩

end Routine

/--
A client which calls the pool while no thread owns a mutex, and whose call is not interrupted,
returns with the effect of the sections and the completions they submit.
-/
theorem Threads.returns_of_sections {V Request IoContext : Type} [DecidableEq IoContext]
    {s : Threads V Request IoContext} {thread : ThreadId} {routine : Routine Request IoContext}
    {impl : PoolImpl V Request IoContext} {submissions : List (Submission Request IoContext)}
    (free : ∀ mutex, s.owner mutex = none) (inClient : s.inClient thread = true)
    (callable : routine.callable = true)
    (isSection : routine.sections s.shared = some (impl, submissions)) :
    ∃ steps, (Threads.system V Request IoContext).execute s
      (.call thread routine :: List.replicate steps (.proceed thread false)) =
        some { s with shared := impl, submitted := s.submitted ++ submissions } := by
  have entered : s.step (Routine.code V Request IoContext) (.call thread routine) =
      some (s.setStack thread (.executing routine routine.body :: s.stack thread)) := by
    simp [State.step, Routine.code, callable, inClient]
  have holdsNothing := (Routine.discipline V Request IoContext).callable routine callable
  have alone : Alone (s.setStack thread (.executing routine routine.body :: s.stack thread))
      thread ((Routine.discipline V Request IoContext).heldAt routine) routine routine.body
      (s.stack thread) := by
    rw [holdsNothing]
    exact ⟨List.nodup_nil, by simp [State.setStack, free], by simp [State.setStack]⟩
  rcases Routine.alone_sections s.shared routine with ⟨fuel, isAlone⟩
  rcases returns_of_code (Routine.discipline V Request IoContext) alone
    (isAlone.trans isSection) with ⟨steps, executed⟩
  refine ⟨steps, ?_⟩
  have owner : s.owner = fun _ => none := funext free
  change (s.step (Routine.code V Request IoContext) (.call thread routine)).bind _ = _
  rw [entered]
  apply executed.trans
  simp [State.setStack, owner]

end ResourcePool.Async
