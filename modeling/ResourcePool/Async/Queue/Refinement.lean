import ResourcePool.Async.Queue.Coherence
import ResourcePool.Transition.System

/-!
# The queue refines a bounded queue with deadlines

`Queue.system` are the runs of the queue: its operations in any order, the completions
of its waits, and the calls of `cancel` by the handlers of completed waits. In every
state of such a run the operations are defined and do to the queued requests what
`Container.BoundedFifo` says.
-/

namespace ResourcePool.Async

open Container

/-- A step of the queue or of its timers. -/
inductive QueueEvent (Request IoContext : Type) where
  | push (ioContext : IoContext) (waitDuration : Duration) (request : Request) (now : TimePoint)
  | pop
  | cancel (ec : WaitResult) (expiresAt : TimePoint)
  | timer (ioContext : IoContext)
  | fire (ioContext : IoContext) (wait : ℕ)
  /-- The handler of a completed wait calls `cancel`. -/
  | deliver (completion : ℕ)

namespace Queue

variable {Request IoContext : Type} [DecidableEq IoContext]

/-- The queue after an event, if the event can happen and what it does is defined. -/
def next (q : Queue Request IoContext) : QueueEvent Request IoContext →
    Option (Queue Request IoContext)
  | .push ioContext waitDuration request now =>
      (q.push ioContext waitDuration request now).map Pushed.queue
  | .pop => q.pop.map Prod.snd
  | .cancel ec expiresAt => (q.cancel ec expiresAt).map Prod.snd
  | .timer ioContext => some (q.timer ioContext).2
  | .fire ioContext wait => q.fire ioContext wait
  | .deliver completion => (q.deliver completion).map Prod.snd

/-- The runs of a queue constructed with a capacity. -/
def system (Request IoContext : Type) [DecidableEq IoContext] (capacity : ℕ) :
    Transition.System (Queue Request IoContext) (QueueEvent Request IoContext) where
  Initial q := q = constructed capacity
  step := next

/-- Each operation keeps the indexes coherent and the queue within its capacity. -/
theorem coherent_next {q after : Queue Request IoContext} {event : QueueEvent Request IoContext}
    (coherent : q.Coherent) (bounded : q.contents.length ≤ q.capacity)
    (stepped : q.next event = some after) :
    after.Coherent ∧ after.contents.length ≤ after.capacity ∧ after.capacity = q.capacity := by
  have cancelled : ∀ (before : Queue Request IoContext) (ec : WaitResult) (bound : TimePoint),
      before.Coherent → before.contents.length ≤ before.capacity →
        (before.cancel ec bound).map Prod.snd = some after →
          after.Coherent ∧ after.contents.length ≤ after.capacity ∧
            after.capacity = before.capacity := by
    intro before ec bound beforeCoherent beforeBounded result
    cases ec with
    | operationAborted =>
        rw [cancel_aborted, Option.map_some, Option.some.injEq] at result
        subst result
        exact ⟨beforeCoherent, beforeBounded, rfl⟩
    | success =>
        rcases cancel_success beforeCoherent bound with
          ⟨posted, other, cancelled, left, capacity, _, remaining⟩
        rw [cancelled, Option.map_some, Option.some.injEq] at result
        subst result
        refine ⟨left, ?_, capacity⟩
        rw [remaining, capacity]
        exact (List.length_filter_le _ _).trans beforeBounded
  cases event with
  | push ioContext waitDuration request now =>
      rw [next] at stepped
      rcases Nat.lt_or_ge q.contents.length q.capacity with room | full
      · rcases push_accepted coherent room ioContext waitDuration request now with
          ⟨other, pushed, entered, capacity, appended⟩
        rw [pushed, Option.map_some, Option.some.injEq] at stepped
        subst stepped
        refine ⟨entered, ?_, capacity⟩
        rw [appended, capacity, List.length_append, List.length_singleton]
        exact room
      · rw [push_refused coherent full, Option.map_some, Option.some.injEq] at stepped
        subst stepped
        exact ⟨coherent, bounded, rfl⟩
  | pop =>
      rw [next] at stepped
      cases pending : q.contents with
      | nil =>
          rw [pop_nothing coherent pending, Option.map_some, Option.some.injEq] at stepped
          subst stepped
          exact ⟨coherent, bounded, rfl⟩
      | cons oldest rest =>
          rcases pop_oldest coherent pending with ⟨other, popped, left, capacity, remaining⟩
          rw [popped, Option.map_some, Option.some.injEq] at stepped
          subst stepped
          refine ⟨left, ?_, capacity⟩
          rw [pending, List.length_cons] at bounded
          rw [remaining, capacity]
          omega
  | cancel ec expiresAt => exact cancelled q ec expiresAt coherent bounded stepped
  | timer ioContext =>
      simp only [next, timer, Option.some.injEq] at stepped
      subst stepped
      simpa using And.intro coherent bounded
  | fire ioContext wait =>
      rcases fire_toIndexes stepped with ⟨same, capacity⟩
      rw [same, capacity]
      exact ⟨coherent, bounded, rfl⟩
  | deliver completion =>
      simp only [next, deliver, Option.bind_eq_bind, Option.map_bind,
        Option.bind_eq_some_iff] at stepped
      rcases stepped with ⟨wait, _, result⟩
      exact cancelled { q with completed := q.completed.eraseIdx completion } _ _
        coherent bounded result

theorem coherent_of_reachable {capacity : ℕ} {q : Queue Request IoContext}
    (reached : (system Request IoContext capacity).Reachable q) :
    q.Coherent ∧ q.contents.length ≤ q.capacity ∧ q.capacity = capacity := by
  apply Transition.System.Reachable.invariant (motive := fun q : Queue Request IoContext =>
    q.Coherent ∧ q.contents.length ≤ q.capacity ∧ q.capacity = capacity) ?_ ?_ reached
  · rintro _ rfl
    exact ⟨Indexes.empty_coherent, Nat.zero_le _, rfl⟩
  · rintro before event after ⟨coherent, bounded, same⟩ stepped
    rcases coherent_next coherent bounded stepped with
      ⟨stillCoherent, stillBounded, capacityKept⟩
    exact ⟨stillCoherent, stillBounded, capacityKept.trans same⟩

/-- The elements of the multimap and the ordered nodes correspond one to one, through the
pointers of the elements and the iterators of the nodes. -/
structure OneToOne (x : Indexes Request IoContext) : Prop where
  nodes_distinct : x.orderedRequests.Nodup
  node_of_element : ∀ entry ∈ x.expiresAtRequests.entries, entry.value ∈ x.orderedRequests ∧
    (x.node entry.value).orderIt = some entry.value ∧
    (x.node entry.value).expiresAtIt = some entry.id
  element_of_node : ∀ it ∈ x.orderedRequests, ∃ entry ∈ x.expiresAtRequests.entries,
    entry.value = it ∧ ∀ other ∈ x.expiresAtRequests.entries, other.value = it → other = entry

omit [DecidableEq IoContext] in
theorem oneToOne_of_coherent {x : Indexes Request IoContext} (coherent : x.Coherent) :
    OneToOne x where
  nodes_distinct := coherent.ordered_nodup
  node_of_element := by
    intro entry member
    rcases coherent.linked entry member with ⟨request, ioContext, contents⟩
    exact ⟨coherent.ordered_of_entry member, by rw [contents], by rw [contents]⟩
  element_of_node := by
    intro it ordered
    rcases coherent.exists_entry ordered with ⟨entry, member, same⟩
    refine ⟨entry, member, same, ?_⟩
    intro other isOther otherSame
    exact coherent.entry_unique isOther member (otherSame.trans same.symm)

/--
The queue simulates the bounded queue with deadlines: `push`, `pop` and `cancel` are
defined in every reachable state, and their results and their effects on the queued
requests are those of the list of pending requests.
-/
theorem simulates_boundedFifo {capacity : ℕ} {q : Queue Request IoContext}
    (reached : (system Request IoContext capacity).Reachable q) :
    q.contents.length ≤ capacity ∧
    (∀ ioContext waitDuration request now,
      match BoundedFifo.push capacity q.contents
          ⟨request, ioContext, TimeTraits.add now waitDuration⟩ with
      | none => q.push ioContext waitDuration request now = some ⟨q, false, some request⟩
      | some pending => ∃ after,
          q.push ioContext waitDuration request now = some ⟨after, true, none⟩ ∧
            after.contents = pending) ∧
    (match BoundedFifo.pop q.contents with
      | none => q.pop = some (none, q)
      | some (oldest, rest) => ∃ after,
          q.pop = some (some ⟨some oldest.item, oldest.context⟩, after) ∧
            after.contents = rest) ∧
    (∀ bound, ∃ posted after, q.cancel .success bound = some (posted, after) ∧
      posted.Perm ((BoundedFifo.expired q.contents bound).map fun pending =>
        ⟨some pending.item, pending.context⟩) ∧
      after.contents = BoundedFifo.cancel q.contents bound) ∧
    (∀ bound, q.cancel .operationAborted bound = some ([], q)) ∧
    OneToOne q.toIndexes ∧
    q.size = q.contents.length ∧
    (q.empty = true ↔ q.contents = []) := by
  rcases coherent_of_reachable reached with ⟨coherent, bounded, rfl⟩
  refine ⟨bounded, ?_, ?_, ?_, q.cancel_aborted, oneToOne_of_coherent coherent, coherent.size_eq,
    empty_iff coherent⟩
  · intro ioContext waitDuration request now
    simp only [BoundedFifo.push]
    split
    · next refused =>
        have full : q.capacity ≤ q.contents.length := by simpa using refused
        exact push_refused coherent full ioContext waitDuration request now
    · next pending accepted =>
        simp only [Option.ite_none_right_eq_some, Option.some.injEq] at accepted
        rcases push_accepted coherent accepted.1 ioContext waitDuration request now with
          ⟨after, pushed, _, _, appended⟩
        exact ⟨after, pushed, appended.trans accepted.2⟩
  · cases pending : q.contents with
    | nil => exact pop_nothing coherent pending
    | cons oldest rest =>
        rcases pop_oldest coherent pending with ⟨after, popped, _, _, remaining⟩
        exact ⟨after, popped, remaining⟩
  · intro bound
    rcases cancel_success coherent bound with
      ⟨posted, after, cancelled, _, _, others, remaining⟩
    exact ⟨posted, after, cancelled, others, remaining⟩

/-- A bound which reaches only the second of two requests. -/
theorem simulates_boundedFifo_second_expires :
    ∃ q, (system ℕ Bool 2).execute (constructed 2)
        [.push false (Ticks.clamp 8) 10 (Ticks.clamp 100),
          .push true (Ticks.clamp 5) 11 (Ticks.clamp 101)] = some q ∧
      ∃ posted after, q.cancel .success (Ticks.clamp 107) = some (posted, after) ∧
        posted.Perm [⟨some 11, true⟩] ∧
        after.contents = [⟨10, false, Ticks.clamp 108⟩] := by
  have ran : ((system ℕ Bool 2).execute (constructed 2)
      [.push false (Ticks.clamp 8) 10 (Ticks.clamp 100),
        .push true (Ticks.clamp 5) 11 (Ticks.clamp 101)]).isSome := rfl
  have reached := Transition.System.execute_reachable rfl (Option.some_get ran).symm
  exact ⟨_, (Option.some_get ran).symm,
    (simulates_boundedFifo reached).2.2.2.1 (Ticks.clamp 107)⟩

end Queue

end ResourcePool.Async
