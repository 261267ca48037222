import ResourcePool.Async.Completion
import ResourcePool.Async.Queue.Timers

/-!
# The asynchronous pool acts on its queue

Each step of the pool takes its queue along steps of `Queue.system`: a push, a pop, a
completion of a wait, or, in `disable`, one pop after the other. So the queue of a pool is
in a state which the queue by itself can reach, and all that holds of these states holds of
it. In particular the earliest deadline of the requests which wait in a pool is watched.
-/

namespace ResourcePool.Async

open Transition

variable {V IoContext : Type} [DecidableEq IoContext]

/-- Any number of steps of a queue. -/
abbrev Queue.Follows {Request : Type} (capacity : ℕ) (q after : Queue Request IoContext) : Prop :=
  (Queue.system Request IoContext capacity).LeadsTo (fun _ _ => True) q after

theorem Queue.follows_of_next {Request : Type} (capacity : ℕ) {q after : Queue Request IoContext}
    {event : QueueEvent Request IoContext} (stepped : q.next event = some after) :
    Queue.Follows capacity q after :=
  .single ⟨event, trivial, stepped⟩

namespace CoherentQueue

variable {Request : Type}

omit [DecidableEq IoContext] in
theorem value_spec {Result : Type} {result : Option Result}
    {queue : Result → Queue Request IoContext}
    (isDefined : ∃ value, result = some value ∧ (queue value).Coherent) :
    result = some (value result queue isDefined).1 := by
  rcases isDefined with ⟨expected, same, coherent⟩
  subst same
  rfl

theorem push_step (q : CoherentQueue Request IoContext) (ioContext : IoContext)
    (waitDuration : Duration) (request : Request) (now : TimePoint) :
    q.toQueue.next (.push ioContext waitDuration request now) =
      some (q.push ioContext waitDuration request now).2.2.toQueue := by
  rw [Queue.next, value_spec (q.push_defined ioContext waitDuration request now)]
  rfl

theorem pop_step (q : CoherentQueue Request IoContext) :
    q.toQueue.next .pop = some q.pop.2.toQueue := by
  rw [Queue.next, value_spec q.pop_defined]
  rfl

theorem cancel_step (q : CoherentQueue Request IoContext) (ec : WaitResult)
    (expiresAt : TimePoint) :
    q.toQueue.next (.cancel ec expiresAt) = some (q.cancel ec expiresAt).2.toQueue := by
  rw [Queue.next, value_spec (q.cancel_defined ec expiresAt)]
  rfl

theorem pop_follows (capacity : ℕ) (q : CoherentQueue Request IoContext) :
    Queue.Follows capacity q.toQueue q.pop.2.toQueue :=
  Queue.follows_of_next capacity q.pop_step

theorem fire_step {q after : CoherentQueue Request IoContext} {ioContext : IoContext} {wait : ℕ}
    (fired : q.fire ioContext wait = some after) :
    q.toQueue.fire ioContext wait = some after.toQueue := by
  simp only [fire] at fired
  split at fired
  · contradiction
  · next other isFired => rw [isFired, ← Option.some.inj fired]

theorem deliver_step {q after : CoherentQueue Request IoContext} {completion : ℕ}
    {posted : List (QueuedValue Request IoContext)}
    (delivered : q.deliver completion = some (posted, after)) :
    q.toQueue.deliver completion = some (posted, after.toQueue) := by
  simp only [deliver, Option.map_eq_some_iff] at delivered
  rcases delivered with ⟨wait, isCompleted, cancelled⟩
  simp only [Queue.deliver, isCompleted, Option.bind_eq_bind, Option.bind_some]
  rcases Prod.mk.inj cancelled with ⟨rfl, rfl⟩
  exact value_spec (cancel_defined
    ⟨{ q.toQueue with completed := q.completed.eraseIdx completion }, q.coherent⟩
    wait.ec wait.expiresAt)

theorem cancel_contents (q : CoherentQueue Request IoContext) (bound : TimePoint) :
    (q.cancel .success bound).2.contents = Container.BoundedFifo.cancel q.contents bound := by
  rcases Queue.cancel_success q.coherent bound with
    ⟨posted, after, cancelled, coherent, capacity, perm, remaining⟩
  simp only [cancel, value_eq _ cancelled]
  exact remaining

theorem exists_fire {q : CoherentQueue Request IoContext} {after : Queue Request IoContext}
    {ioContext : IoContext} {wait : ℕ} (fired : q.toQueue.fire ioContext wait = some after) :
    ∃ callbacks, q.fire ioContext wait = some callbacks ∧ callbacks.toQueue = after := by
  simp only [fire]
  split
  · next isNone =>
      rw [fired] at isNone
      contradiction
  · next other isFired =>
      rw [fired] at isFired
      exact ⟨_, rfl, (Option.some.inj isFired).symm⟩

end CoherentQueue

namespace PoolImpl

variable {Request : Type}

/-- A pool as its constructors make it. -/
structure Fresh (impl : PoolImpl V Request IoContext) : Prop where
  storage : ∃ now, impl.storage.Constructed now
  callbacks : impl.callbacks.toQueue = Queue.constructed impl.callbacks.capacity

omit [DecidableEq IoContext] in
theorem fresh_of_constructed {capacity queueCapacity : ℕ} {idleTimeout lifespan : Duration}
    {impl : PoolImpl V Request IoContext}
    (succeeded : constructed capacity queueCapacity idleTimeout lifespan = .ok impl) :
    impl.Fresh := by
  simp only [constructed, assertCapacity] at succeeded
  split at succeeded
  · contradiction
  · rcases Except.ok.inj succeeded with rfl
    exact ⟨⟨Ticks.zero, .empty ..⟩, rfl⟩

omit [DecidableEq IoContext] in
theorem fresh_of_generated {capacity queueCapacity : ℕ} {genValue : Fin capacity → V}
    {idleTimeout lifespan : Duration} {now : TimePoint} {impl : PoolImpl V Request IoContext}
    (succeeded : generated capacity genValue queueCapacity idleTimeout lifespan now = .ok impl) :
    impl.Fresh := by
  simp only [generated, assertCapacity] at succeeded
  split at succeeded
  · contradiction
  · rcases Except.ok.inj succeeded with rfl
    exact ⟨⟨now, .generated ..⟩, rfl⟩

theorem push_follows (capacity : ℕ) (impl : PoolImpl V Request IoContext)
    (get : UnlockedGet Request IoContext) (now : TimePoint) :
    Queue.Follows capacity impl.callbacks.toQueue
      (impl.push get now).1.callbacks.toQueue := by
  have pushed := Queue.follows_of_next capacity
    (impl.callbacks.push_step get.ioContext get.waitDuration get.request now)
  simp only [push]
  split
  · exact pushed
  · exact pushed

theorem giveBack_follows (capacity : ℕ) {impl after : PoolImpl V Request IoContext}
    {strategy : Strategy} {resIt : CellIterator} {now : TimePoint}
    {submission : Option (Submission Request IoContext)}
    (isDefined : impl.giveBack strategy resIt now = some (after, submission)) :
    Queue.Follows capacity impl.callbacks.toQueue after.callbacks.toQueue := by
  have popped := CoherentQueue.pop_follows capacity impl.callbacks
  rcases used_of_giveBack isDefined with ⟨cell, rfl, used⟩
  cases strategy <;>
  · simp only [giveBack, recycle, waste, used, dif_pos] at isDefined
    split at isDefined <;>
    · next result =>
        rcases Prod.mk.inj (Option.some.inj isDefined) with ⟨rfl, _⟩
        rw [result] at popped
        exact popped

theorem drain_follows (capacity fuel : ℕ) (callbacks : CoherentQueue Request IoContext) :
    Queue.Follows capacity callbacks.toQueue (drain fuel callbacks).2.toQueue := by
  induction fuel generalizing callbacks with
  | zero => exact Relation.ReflTransGen.refl
  | succ fuel ih =>
      have popped := CoherentQueue.pop_follows capacity callbacks
      simp only [drain]
      split
      · next result =>
          rw [result] at popped
          exact popped
      · next result =>
          rw [result] at popped
          exact popped.trans (ih _)

end PoolImpl

namespace World

/-- A step of the pool takes its queue along steps of the queue. -/
theorem follows_of_act (capacity : ℕ) {w after : World V IoContext} {event : Event V IoContext}
    (acted : w.act event = some after) :
    Queue.Follows capacity w.impl.callbacks.toQueue after.impl.callbacks.toQueue := by
  have unchanged (same : after.impl.callbacks = w.impl.callbacks) :
      Queue.Follows capacity w.impl.callbacks.toQueue after.impl.callbacks.toQueue := by
    rw [same]
    exact Relation.ReflTransGen.refl
  cases event with
  | get | run | reset | operate | invalidate =>
      cases stepped_of_act acted <;> exact unchanged rfl
  | push index now =>
      simp only [act] at acted
      split at acted
      · contradiction
      · next get isGet =>
          rw [← Option.some.inj acted]
          exact PoolImpl.push_follows capacity w.impl get now
  | finish handle now =>
      simp only [act] at acted
      split at acted
      · next returning call inCall =>
          split at acted
          · exact unchanged (by rw [← Option.some.inj acted]; rfl)
          · next impl submission result =>
              rw [← Option.some.inj acted]
              simp only [callSection] at result
              split at result
              · exact PoolImpl.giveBack_follows capacity result
              · contradiction
      · contradiction
  | disable =>
      rw [← Option.some.inj acted]
      exact PoolImpl.drain_follows capacity (w.impl.callbacks.size + 1) w.impl.callbacks
  | fire ioContext wait =>
      simp only [act, PoolImpl.fire, Option.map_eq_some_iff, Option.bind_eq_bind,
        Option.bind_eq_some_iff, Option.pure_def, Option.some.injEq] at acted
      rcases acted with ⟨_, ⟨callbacks, fired, rfl⟩, rfl⟩
      have stepped : w.impl.callbacks.toQueue.next (.fire ioContext wait) =
          some callbacks.toQueue := CoherentQueue.fire_step fired
      exact Queue.follows_of_next capacity stepped
  | deliver completion =>
      simp only [act, PoolImpl.deliver, Option.map_eq_some_iff, Option.bind_eq_bind,
        Option.bind_eq_some_iff, Option.pure_def, Option.some.injEq, Prod.exists,
        Prod.mk.injEq] at acted
      rcases acted with ⟨_, _, ⟨posted, callbacks, delivered, rfl, rfl⟩, rfl⟩
      have stepped : w.impl.callbacks.toQueue.next (.deliver completion) =
          some callbacks.toQueue := by
        simp only [Queue.next, CoherentQueue.deliver_step delivered, Option.map_some]
      exact Queue.follows_of_next capacity stepped

omit [DecidableEq IoContext] in
theorem Stepped.queueCapacity {w after : World V IoContext} {event : Event V IoContext}
    (stepped : w.Stepped event after) :
    after.impl.callbacks.capacity = w.impl.callbacks.capacity := by
  cases stepped with
  | queued _ _ _ capacity | handedOn _ _ _ capacity | disabled _ capacity | fired _ capacity
  | delivered _ _ _ capacity => exact capacity
  | _ => rfl

omit [DecidableEq IoContext] in
theorem Constructed.fresh {impl : PoolImpl V Request IoContext}
    (isConstructed : Constructed impl) : impl.Fresh := by
  cases isConstructed with
  | constructed succeeded => exact PoolImpl.fresh_of_constructed succeeded
  | generated succeeded => exact PoolImpl.fresh_of_generated succeeded
  | ofRange succeeded => exact PoolImpl.fresh_of_generated succeeded

/-- The queue of a pool is in a state which the queue by itself can reach. -/
theorem queue_reachable {w : World V IoContext} (reached : (system V IoContext).Reachable w) :
    (Queue.system Request IoContext w.impl.callbacks.capacity).Reachable
      w.impl.callbacks.toQueue := by
  apply System.Reachable.invariant (motive := fun w : World V IoContext =>
    (Queue.system Request IoContext w.impl.callbacks.capacity).Reachable
      w.impl.callbacks.toQueue) ?_ ?_ reached
  · rintro _ ⟨impl, isConstructed, rfl⟩
    exact .start isConstructed.fresh.callbacks
  · intro before event after ih stepped
    rcases stepped_of_step stepped with ⟨isDefined, effect⟩
    change before.step event = some after at stepped
    rw [step, if_neg (by simp [isDefined])] at stepped
    rw [effect.queueCapacity]
    exact System.ReachableVia.leadsTo ih (fun _ _ _ => trivial) (follows_of_act _ stepped)

end World

end ResourcePool.Async
