import ResourcePool.Async.Queue.Throwing

/-!
# Pops and cancellations which throw

`pop` and `cancel` take requests out of the queue before their last calls which may throw.
`popOrThrow` and `cancelOrThrow` are these operations with those calls marked: in the loop of
`cancel` the post of each request, and at the end of both the calls of `update_timer`.

What `update_timer` throws comes after the indexes agree again. What a post throws leaves the
loop of `cancel` in its middle, with the elements of the multimap still there.
-/

namespace ResourcePool.Async

open Container Exceptions

/-- The calls of `pop` and `cancel` which may throw. -/
inductive RemovalCall where
  /-- The post of a request by the loop of `cancel`, counted from the first. -/
  | post (index : ℕ)
  | updateTimer (call : ThrowingCall)
  deriving DecidableEq

def RemovalCall.ofUpdateTimer? : RemovalCall → Option ThrowingCall
  | .post _ => none
  | .updateTimer call => some call

namespace Queue

variable {Request IoContext : Type} [DecidableEq IoContext]

def removalUpdateTimer (failing : Option RemovalCall) :
    Throwing (Queue Request IoContext) RemovalCall Unit :=
  Throwing.relabel .updateTimer (updateTimerOrThrow (failing.bind RemovalCall.ofUpdateTimer?))

def popOrThrow (failing : Option RemovalCall) :
    Throwing (Queue Request IoContext) RemovalCall (Option (QueuedValue Request IoContext)) := do
  let q ← get
  match q.orderedRequests with
  | [] => return none
  | orderedIt :: _ =>
      let (result, indexes) ← Throwing.ofOption (q.dequeue orderedIt)
      set { q with toIndexes := indexes }
      removalUpdateTimer failing
      return some result

/-- A queue during a call of `cancel`, with the requests which the call has posted. -/
structure Cancelling (Request IoContext : Type) where
  queue : Queue Request IoContext
  posted : List (QueuedValue Request IoContext)

/-- The loop of `cancel` from its iteration `index` on. -/
def postEachOrThrow (failing : Option RemovalCall) :
    ℕ → List NodeId → Throwing (Cancelling Request IoContext) RemovalCall Unit
  | _, [] => return ()
  | index, it :: rest => do
      let c ← get
      let req := c.queue.node it
      let ioContext ← Throwing.ofOption req.ioContext
      -- the handler takes the request before it is posted
      set { c with queue := { c.queue with toIndexes := c.queue.moveRequest it } }
      Throwing.attempt failing (.post index)
      let orderIt ← Throwing.ofOption req.orderIt
      let released ← Throwing.ofOption ((c.queue.moveRequest it).release orderIt)
      set (⟨{ c.queue with toIndexes := released }, c.posted ++ [⟨req.request, ioContext⟩]⟩ :
        Cancelling Request IoContext)
      postEachOrThrow failing (index + 1) rest

def cancelOrThrow (failing : Option RemovalCall) (ec : WaitResult) (expiresAt : TimePoint) :
    Throwing (Cancelling Request IoContext) RemovalCall Unit :=
  match ec with
  | .operationAborted => return ()
  | .success => do
      let c ← get
      postEachOrThrow failing 0 ((c.queue.expiresAtRequests.upTo expiresAt).map Entry.value)
      let c ← get
      set { c with queue := { c.queue with
        expiresAtRequests := c.queue.expiresAtRequests.eraseUpTo expiresAt } }
      Throwing.within Cancelling.queue (fun c queue => { c with queue })
        (removalUpdateTimer failing)

/-! ### What the parts of `pop` and `cancel` do -/

variable {failing : Option RemovalCall} {q after : Queue Request IoContext}
  {call : RemovalCall}

theorem returns_removalUpdateTimer (returns : (removalUpdateTimer failing).Returns q () after) :
    q.updateTimer = some after :=
  returns_updateTimerOrThrow (Throwing.returns_relabel.mp returns)

theorem removalUpdateTimer_none :
    (removalUpdateTimer none).Returns q () after ↔ q.updateTimer = some after :=
  Throwing.returns_relabel.trans updateTimerOrThrow_none

theorem throws_removalUpdateTimer (throws : (removalUpdateTimer failing).Throws q call after) :
    failing = some call ∧ (∃ thrown, call = .updateTimer thrown) ∧
      after.toIndexes = q.toIndexes := by
  rcases Throwing.throws_relabel.mp throws with ⟨thrown, updates, rfl⟩
  rcases throws_updateTimerOrThrow updates with ⟨fails, _, same⟩
  refine ⟨?_, ⟨thrown, rfl⟩, same⟩
  rcases Option.bind_eq_some_iff.mp fails with ⟨other, isFailing, named⟩
  cases other with
  | post index => simp [RemovalCall.ofUpdateTimer?] at named
  | updateTimer other =>
      rw [RemovalCall.ofUpdateTimer?, Option.some.injEq] at named
      rw [isFailing, named]

omit [DecidableEq IoContext] in
/-- The loop posts what the loop of `cancel` posts, if it comes to its end. -/
theorem returns_postEachOrThrow {its : List NodeId} {index : ℕ}
    {c left : Cancelling Request IoContext} :
    (postEachOrThrow failing index its).Returns c () left ↔
      (∀ count < its.length, failing ≠ some (.post (index + count))) ∧
        ∃ posted indexes, c.queue.expireEach its = some (posted, indexes) ∧
          left = ⟨{ c.queue with toIndexes := indexes }, c.posted ++ posted⟩ := by
  induction its generalizing index c with
  | nil => simp [postEachOrThrow, Indexes.expireEach]
  | cons it rest ih =>
      simp only [postEachOrThrow, Throwing.returns_get_bind, Throwing.returns_ofOption_bind,
        Throwing.returns_set_bind, Throwing.returns_attempt_bind, ih]
      constructor
      · rintro ⟨ioContext, hasContext, succeeds, orderIt, backLink, released, isReleased, others,
          posted, indexes, expired, rfl⟩
        have one : c.queue.expireOne it =
            some (⟨(c.queue.node it).request, ioContext⟩, released) := by
          simp only [Indexes.expireOne, hasContext, backLink, isReleased, Option.bind_eq_bind,
            Option.bind_some, Option.pure_def]
        refine ⟨?_, ⟨(c.queue.node it).request, ioContext⟩ :: posted, indexes, ?_, ?_⟩
        · intro count bound
          cases count with
          | zero => exact succeeds
          | succ count =>
              rw [List.length_cons] at bound
              rw [← Nat.add_assoc, Nat.add_right_comm]
              exact others count (Nat.lt_of_succ_lt_succ bound)
        · simp only [Indexes.expireEach, one, expired, Option.bind_eq_bind, Option.bind_some,
            Option.pure_def]
        · simp only [List.append_assoc, List.singleton_append]
      · rintro ⟨succeeds, posted, indexes, expired, rfl⟩
        simp only [Indexes.expireEach, Indexes.expireOne, Option.bind_eq_bind,
          Option.bind_eq_some_iff, Option.pure_def, Option.some.injEq, Prod.mk.injEq] at expired
        rcases expired with ⟨⟨_, released⟩, ⟨ioContext, hasContext, orderIt, backLink, _,
          isReleased, rfl, rfl⟩, ⟨others, last⟩, expired, rfl, rfl⟩
        refine ⟨ioContext, hasContext, succeeds 0 (Nat.succ_pos _), orderIt, backLink, released,
          isReleased, ?_, others, last, expired, ?_⟩
        · intro count bound
          rw [Nat.add_right_comm, Nat.add_assoc]
          exact succeeds (count + 1) (Nat.succ_lt_succ bound)
        · simp only [List.append_assoc, List.singleton_append]

omit [DecidableEq IoContext] in
/-- The loop throws at the post of a request which its node has lost already. What was posted
before is out of the list, and the multimap is as it was. -/
theorem throws_postEachOrThrow {its : List NodeId} {index : ℕ}
    {c left : Cancelling Request IoContext}
    (throws : (postEachOrThrow failing index its).Throws c call left) :
    ∃ before it rest posted indexes, its = before ++ it :: rest ∧
      failing = some call ∧ call = .post (index + before.length) ∧
      c.queue.expireEach before = some (posted, indexes) ∧
      left = ⟨{ c.queue with toIndexes := indexes.moveRequest it }, c.posted ++ posted⟩ := by
  induction its generalizing index c with
  | nil => exact absurd throws Throwing.not_throws_pure
  | cons it rest ih =>
      simp only [postEachOrThrow, Throwing.throws_get_bind, Throwing.throws_ofOption_bind,
        Throwing.throws_set_bind, Throwing.throws_attempt_bind] at throws
      rcases throws with ⟨ioContext, hasContext, ⟨fails, rfl, rfl⟩ | ⟨_, orderIt, backLink,
        released, isReleased, throws⟩⟩
      · exact ⟨[], it, rest, [], c.queue.toIndexes, rfl, fails, rfl, rfl, by simp⟩
      · have one : c.queue.expireOne it =
            some (⟨(c.queue.node it).request, ioContext⟩, released) := by
          simp only [Indexes.expireOne, hasContext, backLink, isReleased, Option.bind_eq_bind,
            Option.bind_some, Option.pure_def]
        rcases ih throws with
          ⟨before, failed, after, posted, indexes, rfl, fails, rfl, expired, rfl⟩
        refine ⟨it :: before, failed, after, ⟨(c.queue.node it).request, ioContext⟩ :: posted,
          indexes, rfl, fails, ?_, ?_, ?_⟩
        · rw [List.length_cons, Nat.add_assoc, Nat.add_comm 1]
        · simp only [Indexes.expireEach, one, expired, Option.bind_eq_bind, Option.bind_some,
            Option.pure_def]
        · simp only [List.append_assoc, List.singleton_append]

/-! ### What `pop` and `cancel` do -/

/-- A pop which does not throw is a pop. -/
theorem returns_popOrThrow {popped : Option (QueuedValue Request IoContext)}
    (returns : (popOrThrow failing).Returns q popped after) : q.pop = some (popped, after) := by
  simp only [popOrThrow, Throwing.returns_get_bind] at returns
  rw [pop]
  cases ordered : q.orderedRequests with
  | nil =>
      simp only [ordered, Throwing.returns_pure] at returns
      rcases returns with ⟨rfl, rfl⟩
      rfl
  | cons orderedIt rest =>
      simp only [ordered, Throwing.returns_ofOption_bind, Throwing.returns_set_bind] at returns
      rcases returns with ⟨⟨result, indexes⟩, dequeued, continued⟩
      rcases Throwing.returns_bind.mp continued with ⟨_, _, updates, isResult⟩
      rcases Throwing.returns_pure.mp isResult with ⟨rfl, rfl⟩
      have updated := returns_removalUpdateTimer updates
      simp only [dequeued, updated, Option.bind_eq_bind, Option.bind_some, Option.pure_def]

/-- If no call fails, `popOrThrow` is `pop`. -/
theorem popOrThrow_none {popped : Option (QueuedValue Request IoContext)} :
    (popOrThrow none).Returns q popped after ↔ q.pop = some (popped, after) := by
  refine ⟨returns_popOrThrow, ?_⟩
  intro pops
  simp only [popOrThrow, Throwing.returns_get_bind]
  rw [pop] at pops
  cases ordered : q.orderedRequests with
  | nil =>
      simp only [ordered, Option.pure_def, Option.some.injEq, Prod.mk.injEq] at pops
      exact Throwing.returns_pure.mpr ⟨pops.1.symm, pops.2.symm⟩
  | cons orderedIt rest =>
      simp only [ordered, Option.bind_eq_bind, Option.bind_eq_some_iff, Option.pure_def,
        Option.some.injEq, Prod.mk.injEq] at pops
      rcases pops with ⟨⟨result, indexes⟩, dequeued, updated, isUpdate, rfl, rfl⟩
      simp only [Throwing.returns_ofOption_bind, Throwing.returns_set_bind]
      have updates := removalUpdateTimer_none.mpr isUpdate
      refine ⟨_, dequeued, Throwing.returns_bind.mpr ⟨⟨⟩, _, updates, ?_⟩⟩
      exact Throwing.returns_pure.mpr ⟨rfl, rfl⟩

/-- A pop throws when it has taken the oldest request out. -/
theorem throws_popOrThrow (throws : (popOrThrow failing).Throws q call after) :
    failing = some call ∧ (∃ thrown, call = .updateTimer thrown) ∧
      ∃ orderedIt rest result, q.orderedRequests = orderedIt :: rest ∧
        q.dequeue orderedIt = some (result, after.toIndexes) := by
  simp only [popOrThrow, Throwing.throws_get_bind] at throws
  split at throws
  · exact absurd throws Throwing.not_throws_pure
  · next orderedIt rest ordered =>
      simp only [Throwing.throws_ofOption_bind, Throwing.throws_set_bind] at throws
      rcases throws with ⟨⟨result, indexes⟩, dequeued, continued⟩
      rcases Throwing.throws_bind.mp continued with updates | ⟨_, _, _, isResult⟩
      · rcases throws_removalUpdateTimer updates with ⟨fails, isCall, same⟩
        exact ⟨fails, isCall, orderedIt, rest, result, ordered, same ▸ dequeued⟩
      · exact absurd isResult Throwing.not_throws_pure

variable {ec : WaitResult} {expiresAt : TimePoint} {left : Cancelling Request IoContext}

/-- A cancellation which does not throw is a cancellation. -/
theorem returns_cancelOrThrow
    (returns : (cancelOrThrow failing ec expiresAt).Returns ⟨q, []⟩ () left) :
    q.cancel ec expiresAt = some (left.posted, left.queue) := by
  cases ec with
  | operationAborted =>
      rcases Throwing.returns_pure.mp returns with ⟨_, rfl⟩
      rfl
  | success =>
      simp only [cancelOrThrow, Throwing.returns_get_bind] at returns
      rcases Throwing.returns_bind.mp returns with ⟨_, _, posts, continued⟩
      rcases (returns_postEachOrThrow.mp posts).2 with ⟨posted, indexes, expired, rfl⟩
      simp only [Throwing.returns_get_bind, Throwing.returns_set_bind,
        Throwing.returns_within] at continued
      rcases continued with ⟨_, updates, rfl⟩
      have updated := returns_removalUpdateTimer updates
      simp only [cancel, Indexes.expire, expired, updated, Option.bind_eq_bind,
        Option.bind_some, Option.pure_def, List.nil_append]

/-- If no call fails, `cancelOrThrow` is `cancel`. -/
theorem cancelOrThrow_none :
    (cancelOrThrow none ec expiresAt).Returns ⟨q, []⟩ () left ↔
      q.cancel ec expiresAt = some (left.posted, left.queue) := by
  refine ⟨returns_cancelOrThrow, ?_⟩
  intro cancels
  rcases left with ⟨reached, posted⟩
  cases ec with
  | operationAborted =>
      simp only [cancel, Option.pure_def, Option.some.injEq, Prod.mk.injEq] at cancels
      rcases cancels with ⟨rfl, rfl⟩
      exact Throwing.returns_pure.mpr ⟨rfl, rfl⟩
  | success =>
      simp only [cancel, Indexes.expire, Option.bind_eq_bind, Option.bind_eq_some_iff,
        Option.pure_def, Option.some.injEq, Prod.mk.injEq] at cancels
      rcases cancels with ⟨⟨_, _⟩, ⟨⟨_, indexes⟩, expired, rfl, rfl⟩, _, isUpdate, rfl, rfl⟩
      simp only [cancelOrThrow, Throwing.returns_get_bind]
      refine Throwing.returns_bind.mpr ⟨⟨⟩, _, returns_postEachOrThrow.mpr
        ⟨by simp, _, indexes, expired, rfl⟩, ?_⟩
      simp only [Throwing.returns_get_bind, Throwing.returns_set_bind, Throwing.returns_within]
      exact ⟨_, removalUpdateTimer_none.mpr isUpdate, rfl⟩

/-- Where a cancellation has thrown, and what it has done until then. -/
theorem throws_cancelOrThrow
    (throws : (cancelOrThrow failing ec expiresAt).Throws ⟨q, []⟩ call left) :
    failing = some call ∧
      ((∃ before it rest indexes,
          (q.expiresAtRequests.upTo expiresAt).map Entry.value = before ++ it :: rest ∧
          call = .post before.length ∧ q.expireEach before = some (left.posted, indexes) ∧
          left.queue.toIndexes = indexes.moveRequest it) ∨
        (∃ thrown, call = .updateTimer thrown) ∧
          q.expire expiresAt = some (left.posted, left.queue.toIndexes)) := by
  cases ec with
  | operationAborted => exact absurd throws Throwing.not_throws_pure
  | success =>
      simp only [cancelOrThrow, Throwing.throws_get_bind] at throws
      rcases Throwing.throws_bind.mp throws with posts | ⟨_, _, posts, continued⟩
      · rcases throws_postEachOrThrow posts with
          ⟨before, it, rest, posted, indexes, isDue, fails, isCall, expired, rfl⟩
        rw [Nat.zero_add] at isCall
        exact ⟨fails, Or.inl ⟨before, it, rest, indexes, isDue, isCall, expired, rfl⟩⟩
      · rcases (returns_postEachOrThrow.mp posts).2 with ⟨posted, indexes, expired, rfl⟩
        simp only [Throwing.throws_get_bind, Throwing.throws_set_bind,
          Throwing.throws_within] at continued
        rcases continued with ⟨reached, updates, rfl⟩
        rcases throws_removalUpdateTimer updates with ⟨fails, isCall, same⟩
        refine ⟨fails, Or.inr ⟨isCall, ?_⟩⟩
        simp only [Indexes.expire, expired, same, Option.bind_eq_bind, Option.bind_some,
          Option.pure_def, List.nil_append]

end Queue

end ResourcePool.Async
