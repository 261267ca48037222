import ResourcePool.Async.Queue.Refinement
import ResourcePool.Exceptions.Throwing

/-!
# Pushes which throw

`push` makes calls which may throw between its changes of the queue: `emplace_back` on the
pool of nodes, the insertion into the multimap, and in `update_timer` the construction of a
timer, `expires_at` and `async_wait`. `pushOrThrow` is `push` with these calls marked; if none
of them fails it does what `push` does. Where no request is left, to which `push` does not
come, `update_timer` cancels all timers, and the cancellation of each of them may throw.

Only `emplace_back` comes before all changes. When the insertion throws, the node of the
request is left among the ordered ones without an element of the multimap; when a call of
`update_timer` throws, the request stays queued.
-/

namespace ResourcePool.Async

open Container Exceptions

/-- The calls of `push` and of `update_timer` which may throw. -/
inductive ThrowingCall where
  | emplaceBack
  | insert
  | emplaceTimer
  | expiresAt
  | asyncWait
  /-- The cancellation of a timer where no request is left, counted from the first. -/
  | cancelTimer (index : ℕ)
  deriving DecidableEq

namespace Indexes

variable {Request IoContext : Type}

/-- A node with null and singular members joins the pool. -/
def emplaceBack (x : Indexes Request IoContext) : Indexes Request IoContext :=
  { x with
    node := Function.update x.node x.nodes ⟨none, none, none, none⟩
    nodes := x.nodes + 1
    orderedRequestsPool := x.orderedRequestsPool ++ [x.nodes] }

/-- The first node of the pool becomes the last of the ordered requests. -/
def spliceFirst (x : Indexes Request IoContext) : Option (NodeId × Indexes Request IoContext) :=
  match x.orderedRequestsPool with
  | [] => none
  | orderIt :: pool =>
      some (orderIt, { x with
        orderedRequestsPool := pool
        orderedRequests := x.orderedRequests ++ [orderIt] })

/-- The members of a node are set, but for the iterator to its element of the multimap. -/
def fill (x : Indexes Request IoContext) (orderIt : NodeId) (ioContext : IoContext)
    (request : Option Request) : Indexes Request IoContext :=
  { x with node := Function.update x.node orderIt { x.node orderIt with
      ioContext := some ioContext
      request := request
      orderIt := some orderIt } }

/-- The node gets its element of the multimap. -/
def insertDeadline (x : Indexes Request IoContext) (orderIt : NodeId) (expiresAt : TimePoint) :
    Indexes Request IoContext :=
  { x with
    node := Function.update x.node orderIt { x.node orderIt with
      expiresAtIt := some x.expiresAtRequests.nextId }
    expiresAtRequests := x.expiresAtRequests.insert expiresAt orderIt }

theorem acquire_lists (x : Indexes Request IoContext) :
    x.acquire.2.expiresAtRequests = x.expiresAtRequests ∧
      x.acquire.2.orderedRequests = x.orderedRequests ++ [x.acquire.1] := by
  rw [acquire]
  split <;> exact ⟨rfl, rfl⟩

end Indexes

namespace Queue

variable {Request IoContext : Type} [DecidableEq IoContext]

def getTimerOrThrow (failing : Option ThrowingCall) (ioContext : IoContext) :
    Throwing (Queue Request IoContext) ThrowingCall Timer := do
  let q ← get
  match q.timers.lookup ioContext with
  | some timer => return timer
  | none =>
      Throwing.attempt failing .emplaceTimer
      set { q with timers := q.timers.insert ioContext Timer.start }
      return Timer.start

/-- The loop of `update_timer` which cancels the timers, from its iteration `index` on. They
stay in the map until all are cancelled. -/
def cancelEachOrThrow (failing : Option ThrowingCall) :
    ℕ → List (Sigma fun _ : IoContext => Timer) →
      Throwing (Queue Request IoContext) ThrowingCall Unit
  | _, [] => return ()
  | index, v :: rest => do
      Throwing.attempt failing (.cancelTimer index)
      let q ← get
      set { q with
        timers := q.timers.replace v.1 { v.2 with waits := [] }
        completed := q.completed ++ v.2.abort v.1 }
      cancelEachOrThrow failing (index + 1) rest

def updateTimerOrThrow (failing : Option ThrowingCall) :
    Throwing (Queue Request IoContext) ThrowingCall Unit := do
  let q ← get
  match q.expiresAtRequests.entries with
  | [] =>
      cancelEachOrThrow failing 0 q.timers.entries
      let q ← get
      set { q with timers := ∅ }
  | earliestExpire :: _ =>
      let expiresAt := earliestExpire.key
      let ioContext ← Throwing.ofOption (q.node earliestExpire.value).ioContext
      let timer ← getTimerOrThrow failing ioContext
      Throwing.attempt failing .expiresAt
      let q ← get
      set { q with
        timers := q.timers.insert ioContext ⟨expiresAt, []⟩
        completed := q.completed ++ timer.abort ioContext }
      Throwing.attempt failing .asyncWait
      let q ← get
      set { q with timers := q.timers.insert ioContext ⟨expiresAt, [expiresAt]⟩ }

/-- The beginning of `push`: a node from the pool, or a new one, becomes the last of the
ordered requests. -/
def acquireOrThrow (failing : Option ThrowingCall) :
    Throwing (Queue Request IoContext) ThrowingCall NodeId := do
  let q ← get
  if q.orderedRequestsPool.isEmpty then
    Throwing.attempt failing .emplaceBack
    set { q with toIndexes := q.emplaceBack }
  let q ← get
  let (orderIt, indexes) ← Throwing.ofOption q.spliceFirst
  set { q with toIndexes := indexes }
  return orderIt

def insertOrThrow (failing : Option ThrowingCall) (orderIt : NodeId) (expiresAt : TimePoint) :
    Throwing (Queue Request IoContext) ThrowingCall Unit := do
  Throwing.attempt failing .insert
  let q ← get
  set { q with toIndexes := q.insertDeadline orderIt expiresAt }

/-- A queue during a call of `push`, with what the call has left in the request of the
caller. -/
structure Pushing (Request IoContext : Type) where
  queue : Queue Request IoContext
  request : Option Request

def Pushing.within {Result : Type}
    (computation : Throwing (Queue Request IoContext) ThrowingCall Result) :
    Throwing (Pushing Request IoContext) ThrowingCall Result :=
  Throwing.within Pushing.queue (fun pushing queue => { pushing with queue }) computation

/-- `push`, whose call `failing` throws if there is one and `push` comes to it. -/
def pushOrThrow (failing : Option ThrowingCall) (ioContext : IoContext)
    (waitDuration : Duration) (now : TimePoint) :
    Throwing (Pushing Request IoContext) ThrowingCall Bool := do
  let pushing ← get
  if pushing.queue.fitCapacity then
    let orderIt ← Pushing.within (acquireOrThrow failing)
    let pushing ← get
    set (⟨{ pushing.queue with
      toIndexes := pushing.queue.fill orderIt ioContext pushing.request }, none⟩ :
        Pushing Request IoContext)
    Pushing.within (insertOrThrow failing orderIt (TimeTraits.add now waitDuration))
    Pushing.within (updateTimerOrThrow failing)
    return true
  else
    return false

/-! ### What the parts of `push` do -/

variable {failing : Option ThrowingCall} {q after : Queue Request IoContext} {call : ThrowingCall}

theorem returns_getTimerOrThrow {ioContext : IoContext} {timer : Timer} :
    (getTimerOrThrow failing ioContext).Returns q timer after ↔
      (q.timers.lookup ioContext = none → failing ≠ some .emplaceTimer) ∧
        (timer, after) = q.getTimer ioContext := by
  simp only [getTimerOrThrow, Throwing.returns_get_bind, getTimer]
  cases found : q.timers.lookup ioContext with
  | some known =>
      simp only [Throwing.returns_pure, reduceCtorEq, false_implies, true_and, Prod.mk.injEq]
  | none =>
      simp only [Throwing.returns_attempt_bind, Throwing.returns_set_bind, Throwing.returns_pure,
        forall_const, Prod.mk.injEq]

theorem throws_getTimerOrThrow {ioContext : IoContext}
    (throws : (getTimerOrThrow failing ioContext).Throws q call after) :
    failing = some call ∧ call = .emplaceTimer ∧ after = q := by
  simp only [getTimerOrThrow, Throwing.throws_get_bind] at throws
  split at throws
  · exact absurd throws Throwing.not_throws_pure
  · simp only [Throwing.throws_attempt_bind, Throwing.throws_set_bind, Throwing.not_throws_pure,
      and_false, or_false] at throws
    rcases throws with ⟨fails, rfl, rfl⟩
    exact ⟨fails, rfl, rfl⟩

/-- The waits of all timers are aborted, if the loop comes to its end. -/
theorem returns_cancelEachOrThrow {timers : List (Sigma fun _ : IoContext => Timer)} {index : ℕ}
    (returns : (cancelEachOrThrow failing index timers).Returns q () after) :
    ∃ cancelled, after = { q with
      timers := cancelled
      completed := q.completed ++ timers.flatMap fun v => v.2.abort v.1 } := by
  induction timers generalizing index q with
  | nil =>
      rcases Throwing.returns_pure.mp returns with ⟨_, rfl⟩
      exact ⟨after.timers, by simp⟩
  | cons v rest ih =>
      simp only [cancelEachOrThrow, Throwing.returns_attempt_bind, Throwing.returns_get_bind,
        Throwing.returns_set_bind] at returns
      rcases ih returns.2 with ⟨cancelled, rfl⟩
      exact ⟨cancelled, by simp only [List.flatMap_cons, List.append_assoc]⟩

theorem cancelEachOrThrow_none (timers : List (Sigma fun _ : IoContext => Timer)) (index : ℕ)
    (q : Queue Request IoContext) :
    ∃ after, (cancelEachOrThrow none index timers).Returns q () after := by
  induction timers generalizing index q with
  | nil => exact ⟨q, Throwing.returns_pure.mpr ⟨rfl, rfl⟩⟩
  | cons v rest ih =>
      simp only [cancelEachOrThrow, Throwing.returns_attempt_bind, Throwing.returns_get_bind,
        Throwing.returns_set_bind]
      rcases ih (index + 1) { q with
        timers := q.timers.replace v.1 { v.2 with waits := [] }
        completed := q.completed ++ v.2.abort v.1 } with ⟨after, returns⟩
      exact ⟨after, by simp, returns⟩

/-- A timer which cannot be cancelled leaves those before it cancelled, and all in the map. -/
theorem throws_cancelEachOrThrow {timers : List (Sigma fun _ : IoContext => Timer)} {index : ℕ}
    (throws : (cancelEachOrThrow failing index timers).Throws q call after) :
    failing = some call ∧ after.toIndexes = q.toIndexes ∧
      ∃ before v rest, timers = before ++ v :: rest ∧
        call = .cancelTimer (index + before.length) ∧ after.timers.keys = q.timers.keys ∧
        after.completed = q.completed ++ before.flatMap fun v => v.2.abort v.1 := by
  induction timers generalizing index q with
  | nil => exact absurd throws Throwing.not_throws_pure
  | cons v rest ih =>
      simp only [cancelEachOrThrow, Throwing.throws_attempt_bind, Throwing.throws_get_bind,
        Throwing.throws_set_bind] at throws
      rcases throws with ⟨fails, rfl, rfl⟩ | ⟨_, throws⟩
      · exact ⟨fails, rfl, [], v, rest, rfl, rfl, rfl, by simp⟩
      · rcases ih throws with ⟨fails, same, before, failed, others, rfl, rfl, keys, completed⟩
        refine ⟨fails, same, v :: before, failed, others, rfl, ?_, ?_, ?_⟩
        · rw [List.length_cons, Nat.add_assoc, Nat.add_comm 1]
        · rw [keys, AList.keys_replace]
        · rw [completed, List.flatMap_cons, List.append_assoc]

theorem returns_updateTimerOrThrow
    (returns : (updateTimerOrThrow failing).Returns q () after) : q.updateTimer = some after := by
  simp only [updateTimerOrThrow, Throwing.returns_get_bind] at returns
  cases entries : q.expiresAtRequests.entries with
  | nil =>
      simp only [entries] at returns
      rcases Throwing.returns_bind.mp returns with ⟨_, _, cancels, cleared⟩
      rcases returns_cancelEachOrThrow cancels with ⟨_, rfl⟩
      simp only [Throwing.returns_get_bind, Throwing.returns_set] at cleared
      simp only [updateTimer, entries, cleared]
  | cons earliest rest =>
      simp only [entries] at returns
      rcases Throwing.returns_ofOption_bind.mp returns with ⟨ioContext, hasContext, continued⟩
      rcases Throwing.returns_bind.mp continued with ⟨timer, middle, isTimer, armed⟩
      simp only [Throwing.returns_get_bind, Throwing.returns_attempt_bind,
        Throwing.returns_set_bind, Throwing.returns_set, AList.insert_insert] at armed
      have got := (returns_getTimerOrThrow.mp isTimer).2
      simp only [updateTimer, entries, hasContext, ← got, armed.2.2, Option.bind_eq_bind,
        Option.bind_some, Option.pure_def]

theorem updateTimerOrThrow_none :
    (updateTimerOrThrow none).Returns q () after ↔ q.updateTimer = some after := by
  refine ⟨returns_updateTimerOrThrow, ?_⟩
  intro updated
  simp only [updateTimerOrThrow, Throwing.returns_get_bind]
  cases entries : q.expiresAtRequests.entries with
  | nil =>
      simp only [updateTimer, entries, Option.some.injEq] at updated
      rcases cancelEachOrThrow_none q.timers.entries 0 q with ⟨_, cancels⟩
      refine Throwing.returns_bind.mpr ⟨⟨⟩, _, cancels, ?_⟩
      rcases returns_cancelEachOrThrow cancels with ⟨_, rfl⟩
      simp only [Throwing.returns_get_bind, Throwing.returns_set]
      exact updated.symm
  | cons earliest rest =>
      simp only [updateTimer, entries, Option.bind_eq_bind, Option.bind_eq_some_iff,
        Option.pure_def, Option.some.injEq] at updated
      rcases updated with ⟨ioContext, hasContext, rfl⟩
      refine Throwing.returns_ofOption_bind.mpr ⟨ioContext, hasContext, ?_⟩
      have isTimer : (getTimerOrThrow none ioContext).Returns q (q.getTimer ioContext).1
          (q.getTimer ioContext).2 := returns_getTimerOrThrow.mpr ⟨by simp, rfl⟩
      refine Throwing.returns_bind.mpr ⟨_, _, isTimer, ?_⟩
      simp

/-- The calls of `update_timer` which may throw as long as a request is queued. -/
def ofUpdateTimer : List ThrowingCall := [.emplaceTimer, .expiresAt, .asyncWait]

/-- What `update_timer` throws leaves the requests as they are. -/
theorem throws_updateTimerOrThrow (throws : (updateTimerOrThrow failing).Throws q call after) :
    failing = some call ∧ (q.expiresAtRequests.entries ≠ [] → call ∈ ofUpdateTimer) ∧
      after.toIndexes = q.toIndexes := by
  simp only [updateTimerOrThrow, Throwing.throws_get_bind] at throws
  split at throws
  · next nothing =>
      rcases Throwing.throws_bind.mp throws with cancels | ⟨_, _, _, cleared⟩
      · rcases throws_cancelEachOrThrow cancels with ⟨fails, same, _⟩
        exact ⟨fails, fun queued => absurd nothing queued, same⟩
      · simp only [Throwing.throws_get_bind, Throwing.not_throws_set] at cleared
  · next earliest rest first =>
      rcases Throwing.throws_ofOption_bind.mp throws with ⟨ioContext, hasContext, continued⟩
      rcases Throwing.throws_bind.mp continued with creates | ⟨timer, middle, isTimer, arms⟩
      · rcases throws_getTimerOrThrow creates with ⟨fails, rfl, rfl⟩
        exact ⟨fails, fun _ => by decide, rfl⟩
      · have kept : middle.toIndexes = q.toIndexes := by
          rw [← getTimer_toIndexes q ioContext, ← (returns_getTimerOrThrow.mp isTimer).2]
        simp only [Throwing.throws_attempt_bind, Throwing.throws_get_bind,
          Throwing.throws_set_bind, Throwing.not_throws_set, and_false, or_false] at arms
        rcases arms with ⟨fails, rfl, rfl⟩ | ⟨_, fails, rfl, rfl⟩
        · exact ⟨fails, fun _ => by decide, kept⟩
        · exact ⟨fails, fun _ => by decide, kept⟩

omit [DecidableEq IoContext] in
/-- The acquired node may differ in its members, which `push` sets afterwards. -/
theorem returns_acquireOrThrow {orderIt : NodeId}
    (returns : (acquireOrThrow failing).Returns q orderIt after) :
    orderIt = q.acquire.1 ∧ ∃ indexes members, after = { q with toIndexes := indexes } ∧
      indexes = { q.acquire.2 with
        node := Function.update q.acquire.2.node q.acquire.1 members } := by
  simp only [acquireOrThrow, Throwing.returns_get_bind] at returns
  cases pool : q.orderedRequestsPool with
  | nil =>
      simp only [pool, List.isEmpty_nil, if_true, Throwing.returns_attempt_bind,
        Throwing.returns_set_bind, Throwing.returns_get_bind, Throwing.returns_ofOption_bind,
        Throwing.returns_pure, Indexes.spliceFirst, Indexes.emplaceBack, List.nil_append,
        Option.some.injEq] at returns
      rcases returns with ⟨_, _, rfl, rfl, rfl⟩
      simp only [Indexes.acquire, pool]
      exact ⟨trivial, _, _, rfl, rfl⟩
  | cons it rest =>
      simp only [pool, List.isEmpty_cons, Bool.false_eq_true, if_false,
        Throwing.returns_get_bind, Throwing.returns_ofOption_bind, Throwing.returns_set_bind,
        Throwing.returns_pure, Indexes.spliceFirst, Option.some.injEq] at returns
      rcases returns with ⟨_, rfl, rfl, rfl⟩
      simp only [Indexes.acquire, pool]
      refine ⟨trivial, _, q.node orderIt, rfl, ?_⟩
      rw [Function.update_eq_self]

omit [DecidableEq IoContext] in
theorem acquireOrThrow_none (q : Queue Request IoContext) :
    ∃ orderIt after, (acquireOrThrow none).Returns q orderIt after := by
  simp only [acquireOrThrow, Throwing.returns_get_bind]
  cases pool : q.orderedRequestsPool with
  | nil =>
      simp only [List.isEmpty_nil, if_true, Throwing.returns_attempt_bind,
        Throwing.returns_set_bind, Throwing.returns_get_bind, Throwing.returns_ofOption_bind,
        Throwing.returns_pure, Indexes.spliceFirst, Indexes.emplaceBack, pool, List.nil_append,
        Option.some.injEq]
      exact ⟨_, _, by simp, _, rfl, rfl, rfl⟩
  | cons it rest =>
      simp only [List.isEmpty_cons, Bool.false_eq_true, if_false, Throwing.returns_get_bind,
        Throwing.returns_ofOption_bind, Throwing.returns_set_bind, Throwing.returns_pure,
        Indexes.spliceFirst, pool, Option.some.injEq]
      exact ⟨_, _, _, rfl, rfl, rfl⟩

omit [DecidableEq IoContext] in
theorem throws_acquireOrThrow (throws : (acquireOrThrow failing).Throws q call after) :
    failing = some call ∧ call = .emplaceBack ∧ after = q := by
  simp only [acquireOrThrow, Throwing.throws_get_bind] at throws
  split at throws
  · simp only [Throwing.throws_attempt_bind, Throwing.throws_set_bind, Throwing.throws_get_bind,
      Throwing.throws_ofOption_bind, Throwing.not_throws_pure, and_false, exists_false,
      or_false] at throws
    rcases throws with ⟨fails, rfl, rfl⟩
    exact ⟨fails, rfl, rfl⟩
  · simp only [Throwing.throws_get_bind, Throwing.throws_set_bind, Throwing.throws_ofOption_bind,
      Throwing.not_throws_pure, and_false, exists_false] at throws

omit [DecidableEq IoContext] in
/-- The parts of `push` make up the whole of it, whatever the acquired node held. -/
theorem enqueue_eq {indexes : Indexes Request IoContext}
    {members : ExpiringRequest Request IoContext}
    (acquired : indexes = { q.acquire.2 with
      node := Function.update q.acquire.2.node q.acquire.1 members })
    (ioContext : IoContext) (request : Request) (expiresAt : TimePoint) :
    (indexes.fill q.acquire.1 ioContext (some request)).insertDeadline q.acquire.1 expiresAt =
      q.enqueue ioContext request expiresAt := by
  subst acquired
  simp only [Indexes.fill, Indexes.insertDeadline, Indexes.enqueue, Function.update_idem,
    Function.update_self]

omit [DecidableEq IoContext] in
theorem returns_insertOrThrow {orderIt : NodeId} {expiresAt : TimePoint} :
    (insertOrThrow failing orderIt expiresAt).Returns q () after ↔
      failing ≠ some .insert ∧
        after = { q with toIndexes := q.insertDeadline orderIt expiresAt } := by
  simp only [insertOrThrow, Throwing.returns_attempt_bind, Throwing.returns_get_bind,
    Throwing.returns_set]

omit [DecidableEq IoContext] in
theorem throws_insertOrThrow {orderIt : NodeId} {expiresAt : TimePoint}
    (throws : (insertOrThrow failing orderIt expiresAt).Throws q call after) :
    failing = some call ∧ call = .insert ∧ after = q := by
  simp only [insertOrThrow, Throwing.throws_attempt_bind, Throwing.throws_get_bind,
    Throwing.not_throws_set, and_false, or_false] at throws
  rcases throws with ⟨fails, rfl, rfl⟩
  exact ⟨fails, rfl, rfl⟩

/-! ### What `push` does -/

variable {ioContext : IoContext} {waitDuration : Duration} {now : TimePoint} {request : Request}
  {left : Pushing Request IoContext}

/-- A push which does not throw is a push. -/
theorem returns_pushOrThrow {pushed : Bool}
    (returns : (pushOrThrow failing ioContext waitDuration now).Returns ⟨q, some request⟩
      pushed left) :
    q.push ioContext waitDuration request now = some ⟨left.queue, pushed, left.request⟩ := by
  simp only [pushOrThrow, Throwing.returns_get_bind] at returns
  rw [push]
  split at returns
  · next room =>
      rcases Throwing.returns_bind.mp returns with ⟨orderIt, _, isAcquired, fills⟩
      rcases Throwing.returns_within.mp isAcquired with ⟨_, acquires, rfl⟩
      rcases returns_acquireOrThrow acquires with ⟨rfl, indexes, members, rfl, acquired⟩
      simp only [Throwing.returns_get_bind, Throwing.returns_set_bind] at fills
      rcases Throwing.returns_bind.mp fills with ⟨_, _, isInserted, continued⟩
      rcases Throwing.returns_within.mp isInserted with ⟨_, inserts, rfl⟩
      rcases Throwing.returns_bind.mp continued with ⟨_, _, isUpdated, isPushed⟩
      rcases Throwing.returns_within.mp isUpdated with ⟨updated, updates, rfl⟩
      rcases Throwing.returns_pure.mp isPushed with ⟨rfl, rfl⟩
      have isUpdate := returns_updateTimerOrThrow updates
      rw [(returns_insertOrThrow.mp inserts).2] at isUpdate
      simp only [enqueue_eq acquired] at isUpdate
      rw [if_pos room]
      simp only [isUpdate, Option.bind_eq_bind, Option.bind_some, Option.pure_def]
  · next full =>
      rcases Throwing.returns_pure.mp returns with ⟨rfl, rfl⟩
      rw [if_neg full]
      rfl

/-- If no call fails, `pushOrThrow` is `push`. -/
theorem pushOrThrow_none {pushed : Bool} :
    (pushOrThrow none ioContext waitDuration now).Returns ⟨q, some request⟩ pushed left ↔
      q.push ioContext waitDuration request now = some ⟨left.queue, pushed, left.request⟩ := by
  refine ⟨returns_pushOrThrow, ?_⟩
  intro pushes
  rcases left with ⟨reached, kept⟩
  simp only [pushOrThrow, Throwing.returns_get_bind]
  rw [push] at pushes
  split at pushes
  · next room =>
      simp only [Option.bind_eq_bind, Option.bind_eq_some_iff, Option.pure_def,
        Option.some.injEq, Pushed.mk.injEq] at pushes
      rcases pushes with ⟨_, isUpdate, rfl, rfl, rfl⟩
      rw [if_pos room]
      rcases acquireOrThrow_none q with ⟨orderIt, _, acquires⟩
      rcases returns_acquireOrThrow acquires with ⟨rfl, indexes, members, rfl, acquired⟩
      refine Throwing.returns_bind.mpr
        ⟨_, _, Throwing.returns_within.mpr ⟨_, acquires, rfl⟩, ?_⟩
      simp only [Throwing.returns_get_bind, Throwing.returns_set_bind]
      refine Throwing.returns_bind.mpr ⟨⟨⟩, _, Throwing.returns_within.mpr
        ⟨_, returns_insertOrThrow.mpr ⟨by simp, rfl⟩, rfl⟩, ?_⟩
      rw [← enqueue_eq acquired] at isUpdate
      have updates := updateTimerOrThrow_none.mpr isUpdate
      refine Throwing.returns_bind.mpr
        ⟨⟨⟩, _, Throwing.returns_within.mpr ⟨_, updates, rfl⟩, ?_⟩
      exact Throwing.returns_pure.mpr ⟨rfl, rfl⟩
  · next full =>
      rw [if_neg full]
      simp only [Option.pure_def, Option.some.injEq, Pushed.mk.injEq] at pushes
      rcases pushes with ⟨rfl, rfl, rfl⟩
      exact Throwing.returns_pure.mpr ⟨rfl, rfl⟩

/-- Where a push has thrown, and what it has done until then. -/
theorem throws_pushOrThrow
    (throws : (pushOrThrow failing ioContext waitDuration now).Throws ⟨q, some request⟩
      call left) :
    failing = some call ∧ q.fitCapacity = true ∧
      (call = .emplaceBack ∧ left = ⟨q, some request⟩ ∨
        call = .insert ∧ left.request = none ∧
          left.queue.expiresAtRequests = q.expiresAtRequests ∧
          left.queue.orderedRequests = q.orderedRequests ++ [q.acquire.1] ∨
        call ∈ ofUpdateTimer ∧ left.request = none ∧
          left.queue.toIndexes =
            q.enqueue ioContext request (TimeTraits.add now waitDuration)) := by
  simp only [pushOrThrow, Throwing.throws_get_bind] at throws
  split at throws
  · next room =>
      rcases Throwing.throws_bind.mp throws with throwsFirst | ⟨orderIt, _, isAcquired, fills⟩
      · rcases Throwing.throws_within.mp throwsFirst with ⟨_, acquires, rfl⟩
        rcases throws_acquireOrThrow acquires with ⟨fails, isCall, rfl⟩
        exact ⟨fails, room, Or.inl ⟨isCall, rfl⟩⟩
      · rcases Throwing.returns_within.mp isAcquired with ⟨_, acquires, rfl⟩
        rcases returns_acquireOrThrow acquires with ⟨rfl, indexes, members, rfl, acquired⟩
        simp only [Throwing.throws_get_bind, Throwing.throws_set_bind] at fills
        rcases Throwing.throws_bind.mp fills with throwsSecond | ⟨_, _, isInserted, continued⟩
        · rcases Throwing.throws_within.mp throwsSecond with ⟨_, inserts, rfl⟩
          rcases throws_insertOrThrow inserts with ⟨fails, isCall, rfl⟩
          refine ⟨fails, room, Or.inr (Or.inl ⟨isCall, rfl, ?_⟩)⟩
          subst acquired
          exact q.acquire_lists
        · rcases Throwing.returns_within.mp isInserted with ⟨_, inserts, rfl⟩
          rcases Throwing.throws_bind.mp continued with throwsThird | ⟨_, _, _, isPushed⟩
          · rcases Throwing.throws_within.mp throwsThird with ⟨_, updates, rfl⟩
            rcases throws_updateTimerOrThrow updates with ⟨fails, isCall, same⟩
            rw [(returns_insertOrThrow.mp inserts).2] at isCall same
            refine ⟨fails, room, Or.inr (Or.inr ⟨isCall ?_, rfl, ?_⟩)⟩
            · exact List.ne_nil_of_mem (Multimap.mem_insert.mpr (Or.inl rfl))
            · rw [same]
              exact enqueue_eq acquired _ _ _
          · exact absurd isPushed Throwing.not_throws_pure
  · exact absurd throws Throwing.not_throws_pure

end Queue

end ResourcePool.Async
