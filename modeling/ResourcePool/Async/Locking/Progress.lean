import ResourcePool.Async.Locking.Guards
import ResourcePool.Concurrency.Progress

/-!
# The calls of a pool return

The mutex of the queue is locked after that of the pool and never the other way round, and
the loop of `disable` takes a request out of the queue in each of its rounds. So the calls
which are in progress can always return, whichever threads wait for whichever mutexes.
-/

namespace ResourcePool.Async

open Concurrency Transition

instance : Fintype PoolMutex := ⟨{.pool, .queue}, by intro mutex; cases mutex <;> simp⟩

namespace Routine

variable {V Request IoContext : Type} [DecidableEq IoContext]

theorem rule_ascends : (rule V Request IoContext).Ascends PoolMutex.rank :=
  fun _ _ allowed => allowed

/-- The rounds which are left of the loop of `disable`, and the jumps to it and to the return of
a reading. -/
def rounds : Routine Request IoContext → PoolImpl V Request IoContext → ℕ
  | disable, impl => impl.callbacks.contents.length + 2
  | cancelQueued, impl => impl.callbacks.contents.length + 1
  | size, _ | available, _ | used, _ | stats, _ | queueSize, _ | queueEmpty, _ => 1
  | _, _ => 0

theorem decreases_cancelQueuedBody (impl : PoolImpl V Request IoContext) :
    (cancelQueuedBody : Body V Request IoContext).Decreases rounds
      (rounds .cancelQueued impl) impl := by
  intro after accessed
  rcases Option.some.inj accessed with rfl
  beta_reduce
  rcases impl.callbacks.pop_cases with
    ⟨_, popped⟩ | ⟨oldest, rest, after, front, popped, _, remaining⟩
  · rw [popped]
    trivial
  · rw [popped]
    change after.contents.length + 1 < impl.callbacks.contents.length + 1
    rw [front, remaining, List.length_cons]
    omega

theorem decreases_getBody {bound : ℕ} (ioContext : IoContext) (handler : Request)
    (waitDuration : Duration) (now pushedAt : TimePoint) (impl : PoolImpl V Request IoContext) :
    (getBody ioContext handler waitDuration now pushedAt).Decreases rounds bound impl := by
  intro after _
  beta_reduce
  cases (impl.get ioContext handler waitDuration now).2 with
  | submitted submission =>
      by_cases disabled : impl.disabled = true
      · simp [disabled, Program.Decreases]
      · simp [disabled, Program.Decreases]
  | unlocked unlocked =>
      intro pushed _
      beta_reduce
      cases (after.push unlocked pushedAt).2 with
      | none => trivial
      | some submission => trivial

theorem decreases_giveBack {bound : ℕ}
    {release : PoolImpl V Request IoContext → Option (PoolImpl V Request IoContext)}
    {serve : QueuedValue Request IoContext → Body V Request IoContext}
    (decreases : ∀ queued impl, (serve queued).Decreases rounds bound impl)
    (impl : PoolImpl V Request IoContext) :
    (giveBack release serve).Decreases rounds bound impl := by
  intro after _
  beta_reduce
  cases impl.callbacks.pop.1 with
  | none => exact fun _ _ => trivial
  | some queued => exact decreases queued after

theorem decreases_deliverBody {bound : ℕ} (completion : ℕ)
    (impl : PoolImpl V Request IoContext) :
    (deliverBody completion).Decreases rounds bound impl := by
  intro after _
  beta_reduce
  split
  · trivial
  · next wait _ =>
      cases wait.ec with
      | operationAborted => trivial
      | success => exact fun _ _ => Program.decreases_postEach _ trivial

theorem terminating : (code V Request IoContext).Terminating rounds := by
  intro routine impl
  cases routine with
  | get ioContext handler waitDuration now pushedAt =>
      exact decreases_getBody ioContext handler waitDuration now pushedAt impl
  | recycle resIt now =>
      refine decreases_giveBack ?_ impl
      exact fun _ _ _ _ _ _ => trivial
  | waste resIt =>
      refine decreases_giveBack ?_ impl
      exact fun _ _ _ _ => trivial
  | disable =>
      intro after accessed
      rcases Option.some.inj accessed with rfl
      exact Nat.lt_succ_self _
  | cancelQueued => exact decreases_cancelQueuedBody impl
  | invalidate => exact fun _ _ => trivial
  | size | available | used | queueSize | queueEmpty => exact fun _ _ => Nat.one_pos
  | stats => exact fun _ _ _ _ => Nat.one_pos
  | returned => trivial
  | fire ioContext wait => exact fun _ _ => trivial
  | deliver completion => exact decreases_deliverBody completion impl

end Routine

namespace Threads

variable {V Request IoContext : Type} [DecidableEq IoContext]

/-- An event which continues a call or a handler, and is no call of `disable` which comes to
cancel a request whose `io_context` its thread runs. -/
def OnlyReturns (s : Threads V Request IoContext)
    (event : Concurrency.Event IoContext (Routine Request IoContext)) : Prop :=
  event.returns = true ∧ s.DisablesElsewhere event

/--
Threads which wait for the mutexes of a pool never do so in a circle: from every state which
is reached while no call of `disable` comes to cancel a request whose `io_context` its own
thread runs, all calls and handlers in progress can return, up to a state in which no mutex
is owned. What may keep them from it is such a call of `disable`, or an undefined access,
as that through an iterator to a cell which is not used.
-/
theorem calls_can_return {s : Threads V Request IoContext}
    (reached : (system V Request IoContext).ReachableVia DisablesElsewhere s) :
    ∃ after, (system V Request IoContext).LeadsTo OnlyReturns s after ∧
      ((∀ thread, after.stack thread = []) ∧ (∀ mutex, after.owner mutex = none) ∨
        after.AtUndefined ∨
        ∃ thread inside, ¬after.DisablesElsewhere (.proceed thread inside)) := by
  rcases leadsTo_return Routine.rule_ascends (Routine.obeys V Request IoContext)
    Routine.terminating (reachedElsewhere reached) with ⟨after, leads, outcome⟩
  refine ⟨after, ?_, ?_⟩
  · exact leads.mono fun _ _ only => ⟨only.1, disablesElsewhere_iff.mpr only.2⟩
  · rcases outcome with (atUndefined | ⟨thread, inside, here⟩) | idle
    · exact Or.inr (Or.inl atUndefined)
    · exact Or.inr (Or.inr ⟨thread, inside, fun elsewhere =>
        here (disablesElsewhere_iff.mp elsewhere)⟩)
    · exact Or.inl idle

/-- A thread owns the mutex of the pool, for which another one waits to disable it. -/
def waitingRun : List (Concurrency.Event Bool (Routine ℕ Bool)) :=
  [.call 0 (.get false 0 Ticks.zero (Ticks.clamp 10) (Ticks.clamp 10)), .proceed 0 false,
    .call 1 .disable]

theorem calls_can_return_waiting :
    ∃ s, (system ℕ ℕ Bool).execute oneCell waitingRun = some s ∧ s.owner .pool = some 0 ∧
      (system ℕ ℕ Bool).step s (.proceed 1 false) = none ∧
      ∃ after, (system ℕ ℕ Bool).LeadsTo OnlyReturns s after ∧
        ((∀ thread, after.stack thread = []) ∧ (∀ mutex, after.owner mutex = none) ∨
          after.AtUndefined ∨
          ∃ thread inside, ¬after.DisablesElsewhere (.proceed thread inside)) := by
  have ran : ((system ℕ ℕ Bool).execute oneCell waitingRun).isSome := rfl
  have reached : (system ℕ ℕ Bool).ReachableVia DisablesElsewhere _ :=
    System.ReachableVia.execute (.start ⟨_, rfl⟩) (by decide) (Option.some_get ran).symm
  exact ⟨_, (Option.some_get ran).symm, rfl, rfl, calls_can_return reached⟩

end Threads

end ResourcePool.Async
