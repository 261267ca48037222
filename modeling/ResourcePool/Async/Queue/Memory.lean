import ResourcePool.Async.Queue.Timers

/-!
# What the nodes of the queue keep

Nodes are never freed: `pop` and `cancel` put them into the pool, and `push` takes them from
there. As it constructs one only when the pool is empty, there are as many nodes as there
were requests in the queue at a time, which is recorded as the peak next to a run.

A node in the pool has no request any more, so that nothing which a handler owns is kept
longer than its request is queued.
-/

namespace ResourcePool.Async

open Container

namespace Indexes

variable {Request IoContext : Type} {x after last : Indexes Request IoContext}

/-- No node is constructed, and none is lost. -/
structure SameNodes (x after : Indexes Request IoContext) : Prop where
  nodes : after.nodes = x.nodes
  listed : after.orderedRequests.length + after.orderedRequestsPool.length =
    x.orderedRequests.length + x.orderedRequestsPool.length

theorem SameNodes.refl (x : Indexes Request IoContext) : x.SameNodes x := ⟨rfl, rfl⟩

theorem SameNodes.trans (first : x.SameNodes after) (second : after.SameNodes last) :
    x.SameNodes last :=
  ⟨second.nodes.trans first.nodes, second.listed.trans first.listed⟩

theorem sameNodes_of_release {it : NodeId} (released : x.release it = some after) :
    x.SameNodes after := by
  simp only [release, Option.ite_none_right_eq_some, Option.some.injEq] at released
  rcases released with ⟨ordered, rfl⟩
  have fewer := List.length_erase_of_mem ordered
  have := List.length_pos_of_mem ordered
  refine ⟨rfl, ?_⟩
  dsimp only
  rw [List.length_cons]
  omega

theorem sameNodes_of_dequeue {it : NodeId} {result : QueuedValue Request IoContext}
    (dequeued : x.dequeue it = some (result, after)) : x.SameNodes after := by
  simp only [dequeue, Option.bind_eq_bind, Option.bind_eq_some_iff, Option.pure_def,
    Option.some.injEq, Prod.mk.injEq] at dequeued
  rcases dequeued with ⟨_, _, _, _, erased, isErased, released, isReleased, _, rfl⟩
  simp only [eraseDeadline, Option.map_eq_some_iff] at isErased
  rcases isErased with ⟨_, _, rfl⟩
  have same := sameNodes_of_release isReleased
  exact ⟨same.nodes, same.listed⟩

theorem sameNodes_of_expireEach {its : List NodeId} {posted : List (QueuedValue Request IoContext)}
    (expired : x.expireEach its = some (posted, after)) : x.SameNodes after := by
  induction its generalizing x posted with
  | nil =>
      simp only [expireEach, Option.some.injEq, Prod.mk.injEq] at expired
      rw [← expired.2]
      exact .refl x
  | cons it rest ih =>
      simp only [expireEach, expireOne, Option.bind_eq_bind, Option.bind_eq_some_iff,
        Option.pure_def, Option.some.injEq, Prod.mk.injEq] at expired
      rcases expired with ⟨⟨_, released⟩, ⟨_, _, _, _, _, isReleased, _, rfl⟩, ⟨_, _⟩, others,
        _, rfl⟩
      have same := sameNodes_of_release isReleased
      exact SameNodes.trans ⟨same.nodes, same.listed⟩ (ih others)

theorem sameNodes_of_expire {bound : TimePoint} {posted : List (QueuedValue Request IoContext)}
    (expired : x.expire bound = some (posted, after)) : x.SameNodes after := by
  simp only [expire, Option.bind_eq_bind, Option.bind_eq_some_iff, Option.pure_def,
    Option.some.injEq, Prod.mk.injEq] at expired
  rcases expired with ⟨⟨_, _⟩, each, _, rfl⟩
  have same := sameNodes_of_expireEach each
  exact ⟨same.nodes, same.listed⟩

/-- What a step of the queue does to its indexes. -/
inductive Moved (x : Indexes Request IoContext) : Indexes Request IoContext → Prop where
  | same : Moved x x
  | enqueued (ioContext : IoContext) (request : Request) (expiresAt : TimePoint) :
      Moved x (x.enqueue ioContext request expiresAt)
  | dequeued {it : NodeId} {result : QueuedValue Request IoContext}
      {after : Indexes Request IoContext} (dequeued : x.dequeue it = some (result, after)) :
      Moved x after
  | expired {bound : TimePoint} {posted : List (QueuedValue Request IoContext)}
      {after : Indexes Request IoContext} (expired : x.expire bound = some (posted, after)) :
      Moved x after

/-- A push constructs a node only if the pool is empty. -/
theorem enqueue_nodes (x : Indexes Request IoContext) (ioContext : IoContext) (request : Request)
    (expiresAt : TimePoint) :
    x.SameNodes (x.enqueue ioContext request expiresAt) ∨
      x.orderedRequestsPool = [] ∧
        (x.enqueue ioContext request expiresAt).nodes = x.nodes + 1 ∧
        (x.enqueue ioContext request expiresAt).orderedRequestsPool = [] ∧
        (x.enqueue ioContext request expiresAt).orderedRequests.length =
          x.orderedRequests.length + 1 := by
  cases pool : x.orderedRequestsPool with
  | nil =>
      right
      simp [enqueue, acquire, pool]
  | cons orderIt rest =>
      left
      refine ⟨by simp [enqueue, acquire, pool], ?_⟩
      simp only [enqueue, acquire, pool, List.length_append, List.length_cons, List.length_nil]
      omega

/-- A step constructs no node, or it is a push with the pool empty. -/
theorem Moved.nodes (moved : x.Moved after) :
    x.SameNodes after ∨
      x.orderedRequestsPool = [] ∧ after.nodes = x.nodes + 1 ∧
        after.orderedRequestsPool = [] ∧
        after.orderedRequests.length = x.orderedRequests.length + 1 := by
  cases moved with
  | same => exact Or.inl (.refl x)
  | enqueued ioContext request expiresAt => exact x.enqueue_nodes ioContext request expiresAt
  | dequeued dequeued => exact Or.inl (sameNodes_of_dequeue dequeued)
  | expired expired => exact Or.inl (sameNodes_of_expire expired)

/-- The requests which are kept in nodes, queued or not. -/
def keptRequests (x : Indexes Request IoContext) : List Request :=
  (x.orderedRequests ++ x.orderedRequestsPool).filterMap fun it => (x.node it).request

/-- The requests of the nodes in the pool were all moved from. -/
def PoolEmptied (x : Indexes Request IoContext) : Prop :=
  ∀ it ∈ x.orderedRequestsPool, (x.node it).request = none

theorem node_of_release {it : NodeId} (released : x.release it = some after) :
    after.node = x.node := by
  simp only [release, Option.ite_none_right_eq_some, Option.some.injEq] at released
  rw [← released.2]

theorem PoolEmptied.move_release (emptied : x.PoolEmptied) {it : NodeId}
    (released : (x.moveRequest it).release it = some after) : after.PoolEmptied := by
  simp only [release, Option.ite_none_right_eq_some, Option.some.injEq] at released
  rcases released with ⟨_, rfl⟩
  intro other member
  by_cases same : other = it
  · simp [moveRequest, same]
  · have older := emptied other (by simpa [moveRequest, same] using member)
    simpa [moveRequest, same] using older

theorem PoolEmptied.dequeue (emptied : x.PoolEmptied) {it : NodeId}
    {result : QueuedValue Request IoContext} (dequeued : x.dequeue it = some (result, after)) :
    after.PoolEmptied := by
  simp only [Indexes.dequeue, Option.bind_eq_bind, Option.bind_eq_some_iff, Option.pure_def,
    Option.some.injEq, Prod.mk.injEq] at dequeued
  rcases dequeued with ⟨_, _, expiresAtIt, _, erased, isErased, released, isReleased, _, rfl⟩
  simp only [eraseDeadline, Option.map_eq_some_iff] at isErased
  rcases isErased with ⟨_, _, rfl⟩
  exact move_release (x := { x with expiresAtRequests := x.expiresAtRequests.erase expiresAtIt })
    emptied isReleased

theorem PoolEmptied.expireEach {its : List NodeId} {posted : List (QueuedValue Request IoContext)}
    (emptied : x.PoolEmptied) (linked : ∀ it ∈ its, (x.node it).orderIt = some it)
    (expired : x.expireEach its = some (posted, after)) : after.PoolEmptied := by
  induction its generalizing x posted with
  | nil =>
      simp only [Indexes.expireEach, Option.some.injEq, Prod.mk.injEq] at expired
      exact expired.2 ▸ emptied
  | cons it rest ih =>
      simp only [Indexes.expireEach, expireOne, Option.bind_eq_bind, Option.bind_eq_some_iff,
        Option.pure_def, Option.some.injEq, Prod.mk.injEq] at expired
      rcases expired with ⟨⟨_, released⟩, ⟨_, _, orderIt, isOrderIt, _, isReleased, _, rfl⟩,
        ⟨_, _⟩, others, _, rfl⟩
      rw [linked it List.mem_cons_self, Option.some.injEq] at isOrderIt
      subst isOrderIt
      refine ih (emptied.move_release isReleased) ?_ others
      intro other member
      have own := linked other (List.mem_cons_of_mem _ member)
      rw [node_of_release isReleased, moveRequest]
      by_cases same : other = it
      · simpa [same] using linked it List.mem_cons_self
      · simpa [same] using own

theorem PoolEmptied.moved (emptied : x.PoolEmptied) (coherent : x.Coherent)
    (moved : x.Moved after) : after.PoolEmptied := by
  cases moved with
  | same => exact emptied
  | enqueued ioContext request expiresAt =>
      cases pool : x.orderedRequestsPool with
      | nil =>
          intro it member
          simp [enqueue, acquire, pool] at member
      | cons orderIt rest =>
          have apart := (List.nodup_append.mp coherent.distinct).2.1
          rw [pool, List.nodup_cons] at apart
          intro it member
          have isRest : it ∈ rest := by simpa [enqueue, acquire, pool] using member
          have different : it ≠ orderIt := fun same => apart.1 (same ▸ isRest)
          have older := emptied it (pool ▸ List.mem_cons_of_mem _ isRest)
          simpa [enqueue, acquire, pool, different] using older
  | dequeued dequeued => exact emptied.dequeue dequeued
  | expired expired =>
      simp only [expire, Option.bind_eq_bind, Option.bind_eq_some_iff, Option.pure_def,
        Option.some.injEq, Prod.mk.injEq] at expired
      rcases expired with ⟨⟨_, last⟩, each, _, rfl⟩
      have remaining : last.PoolEmptied := by
        refine emptied.expireEach ?_ each
        intro it member
        rcases List.mem_map.mp member with ⟨entry, expires, rfl⟩
        rcases coherent.linked entry (Multimap.mem_upTo.mp expires).1 with ⟨_, _, isNode⟩
        rw [isNode]
      exact remaining

/-- Every request which is kept in a node is queued. -/
theorem keptRequests_length (coherent : x.Coherent) (emptied : x.PoolEmptied) :
    x.keptRequests.length = x.contents.length := by
  have nothing : x.orderedRequestsPool.filterMap (fun it => (x.node it).request) = [] :=
    List.filterMap_eq_nil_iff.mpr emptied
  rw [keptRequests, List.filterMap_append, nothing, List.append_nil, coherent.contents_length,
    List.length_filterMap_eq_countP, List.countP_eq_length]
  intro it ordered
  rcases coherent.exists_entry ordered with ⟨entry, isEntry, rfl⟩
  rcases coherent.linked entry isEntry with ⟨request, ioContext, isNode⟩
  rw [isNode, Option.isSome_some]

end Indexes

namespace Queue

variable {Request IoContext : Type} [DecidableEq IoContext] {q after : Queue Request IoContext}

theorem moved_of_cancel {ec : WaitResult} {bound : TimePoint}
    {posted : List (QueuedValue Request IoContext)}
    (cancelled : q.cancel ec bound = some (posted, after)) : q.Moved after.toIndexes := by
  cases ec with
  | operationAborted =>
      rcases Prod.mk.inj (Option.some.inj cancelled) with ⟨_, rfl⟩
      exact .same
  | success =>
      simp only [cancel, Option.bind_eq_bind, Option.bind_eq_some_iff, Option.pure_def,
        Option.some.injEq, Prod.mk.injEq] at cancelled
      rcases cancelled with ⟨⟨_, indexes⟩, expired, updated, isUpdate, _, rfl⟩
      rw [toIndexes_of_updateTimer isUpdate]
      exact .expired expired

theorem moved_of_next {event : QueueEvent Request IoContext} (stepped : q.next event = some after) :
    q.Moved after.toIndexes := by
  cases event with
  | push ioContext waitDuration request now =>
      simp only [next, push, Option.map_eq_some_iff] at stepped
      rcases stepped with ⟨pushed, isPushed, rfl⟩
      split at isPushed
      · simp only [Option.bind_eq_bind, Option.bind_eq_some_iff, Option.pure_def,
          Option.some.injEq] at isPushed
        rcases isPushed with ⟨updated, isUpdate, rfl⟩
        rw [toIndexes_of_updateTimer isUpdate]
        exact .enqueued ioContext request (TimeTraits.add now waitDuration)
      · rw [← Option.some.inj isPushed]
        exact .same
  | pop =>
      simp only [next, pop, Option.map_eq_some_iff] at stepped
      rcases stepped with ⟨⟨result, _⟩, popped, rfl⟩
      split at popped
      · rcases Prod.mk.inj (Option.some.inj popped) with ⟨_, rfl⟩
        exact .same
      · simp only [Option.bind_eq_bind, Option.bind_eq_some_iff, Option.pure_def,
          Option.some.injEq, Prod.mk.injEq] at popped
        rcases popped with ⟨⟨_, indexes⟩, dequeued, updated, isUpdate, _, rfl⟩
        rw [toIndexes_of_updateTimer isUpdate]
        exact .dequeued dequeued
  | cancel ec bound =>
      simp only [next, Option.map_eq_some_iff] at stepped
      rcases stepped with ⟨⟨posted, _⟩, cancelled, rfl⟩
      exact moved_of_cancel cancelled
  | timer ioContext =>
      simp only [next, timer, Option.some.injEq] at stepped
      rw [← stepped, getTimer_toIndexes]
      exact .same
  | fire ioContext wait =>
      rw [(fire_toIndexes stepped).1]
      exact .same
  | deliver completion =>
      simp only [next, deliver, Option.map_eq_some_iff, Option.bind_eq_bind,
        Option.bind_eq_some_iff] at stepped
      rcases stepped with ⟨⟨posted, _⟩, ⟨wait, _, cancelled⟩, rfl⟩
      exact moved_of_cancel (q := { q with completed := q.completed.eraseIdx completion }) cancelled

/-- The largest number of requests which were in the queue at a time. -/
def recordPeak (q : Queue Request IoContext) (peak : ℕ) (event : QueueEvent Request IoContext) :
    ℕ :=
  match q.next event with
  | none => peak
  | some after => max peak after.size

/-- The runs of a queue together with the peak of its size. -/
def peakSystem (Request IoContext : Type) [DecidableEq IoContext] (capacity : ℕ) :
    Transition.System (Queue Request IoContext × ℕ) (QueueEvent Request IoContext) :=
  (system Request IoContext capacity).withHistory (fun _ peak => peak = 0) recordPeak

/-- The nodes in the lists are all there are, and as many as the queue had requests. -/
structure Peaked (capacity : ℕ) (q : Queue Request IoContext) (peak : ℕ) : Prop where
  coherent : q.Coherent
  bounded : q.contents.length ≤ capacity
  sameCapacity : q.capacity = capacity
  listed : q.orderedRequests.length + q.orderedRequestsPool.length = q.nodes
  isPeak : q.nodes = peak
  peak_le : peak ≤ capacity

theorem Peaked.next {capacity peak : ℕ} (peaked : q.Peaked capacity peak)
    {event : QueueEvent Request IoContext} (stepped : q.next event = some after) :
    after.Peaked capacity (q.recordPeak peak event) := by
  rcases peaked with ⟨coherent, bounded, rfl, listed, rfl, peak_le⟩
  rcases coherent_next coherent bounded stepped with ⟨stillCoherent, stillBounded, sameCapacity⟩
  have size : after.size = after.orderedRequests.length := by
    rw [Queue.size, stillCoherent.size_eq, stillCoherent.contents_length]
  rw [sameCapacity] at stillBounded
  have recorded : q.recordPeak q.nodes event = max q.nodes after.orderedRequests.length := by
    simp only [recordPeak, stepped, size]
  rw [recorded]
  rcases (moved_of_next stepped).nodes with ⟨nodes, same⟩ | ⟨pool, nodes, stillPool, longer⟩
  · have noHigher : max q.nodes after.orderedRequests.length = q.nodes := by omega
    rw [noHigher]
    exact ⟨stillCoherent, stillBounded, sameCapacity, by omega, nodes, peak_le⟩
  · rw [pool, List.length_nil, Nat.add_zero] at listed
    have higher : max q.nodes after.orderedRequests.length = q.nodes + 1 := by omega
    rw [stillCoherent.contents_length] at stillBounded
    rw [higher]
    refine ⟨stillCoherent, ?_, sameCapacity, ?_, nodes, by omega⟩
    · rw [stillCoherent.contents_length]
      exact stillBounded
    · rw [stillPool, List.length_nil]
      omega

/--
The queue has constructed as many nodes as it had requests at its peak, which its capacity
bounds. Each of them is in one of the two lists, in one place.
-/
theorem nodes_eq_peak {capacity peak : ℕ} {q : Queue Request IoContext}
    (reached : (peakSystem Request IoContext capacity).Reachable (q, peak)) :
    q.nodes = peak ∧ peak ≤ capacity ∧
      (q.orderedRequests ++ q.orderedRequestsPool).Perm (List.range q.nodes) := by
  have peaked : q.Peaked capacity peak := by
    apply Transition.System.Reachable.invariant
      (motive := fun pair : Queue Request IoContext × ℕ => pair.1.Peaked capacity pair.2)
      ?_ ?_ reached
    · rintro ⟨start, _⟩ ⟨rfl, rfl⟩
      exact ⟨Indexes.empty_coherent, Nat.zero_le _, rfl, rfl, rfl, Nat.zero_le _⟩
    · rintro ⟨before, past⟩ event ⟨after, later⟩ peaked stepped
      rcases Transition.System.withHistory_step_eq_some.mp stepped with ⟨moved, rfl⟩
      exact peaked.next moved
  refine ⟨peaked.isPeak, peaked.peak_le, ?_⟩
  have inRange : q.orderedRequests ++ q.orderedRequestsPool ⊆ List.range q.nodes := fun it member =>
    List.mem_range.mpr (peaked.coherent.constructed it member)
  apply (List.subperm_of_subset peaked.coherent.distinct inRange).perm_of_length_le
  rw [List.length_range, List.length_append, peaked.listed]

/-- No node in the pool keeps a request. -/
theorem poolEmptied_of_reachable {capacity : ℕ} {q : Queue Request IoContext}
    (reached : (system Request IoContext capacity).Reachable q) : q.PoolEmptied := by
  have always : ∀ before : Queue Request IoContext,
      (system Request IoContext capacity).Reachable before → before.Coherent :=
    fun _ isReached => (coherent_of_reachable isReached).1
  apply Transition.System.Reachable.invariant_of
    (motive := fun q : Queue Request IoContext => q.PoolEmptied) always ?_ ?_ reached
  · rintro _ rfl it member
    contradiction
  · intro before event after coherent emptied stepped
    exact emptied.moved coherent (moved_of_next stepped)

/-- Three requests come, and two of them are in the queue at a time. -/
def peakingRun : List (QueueEvent ℕ Bool) :=
  [.push false Ticks.zero 0 Ticks.zero, .push true Ticks.zero 1 Ticks.zero, .pop,
    .push false Ticks.zero 2 Ticks.zero]

theorem nodes_eq_peak_peaking :
    ∃ q peak, (peakSystem ℕ Bool 5).execute (constructed 5, 0) peakingRun = some (q, peak) ∧
      peak = 2 ∧ q.nodes = peak ∧ peak ≤ 5 ∧
      (q.orderedRequests ++ q.orderedRequestsPool).Perm (List.range q.nodes) := by
  have ran : ((peakSystem ℕ Bool 5).execute (constructed 5, 0) peakingRun).isSome := rfl
  have begins : (peakSystem ℕ Bool 5).Initial (constructed 5, 0) := ⟨rfl, rfl⟩
  have reached := Transition.System.execute_reachable begins (Option.some_get ran).symm
  exact ⟨_, _, rfl, rfl, nodes_eq_peak reached⟩

end Queue

end ResourcePool.Async
