import ResourcePool.Async.Queue.Removal
import ResourcePool.Async.Queue.StrongGuarantee

/-!
# What exceptions leave of the queue

The runs of a queue each of whose operations may throw at each of its calls. Whether the
indexes agree afterwards depends on the call alone: a failed insertion leaves a node without
an element of the multimap, and a failed post leaves an element whose request is gone. All
other calls throw where the indexes agree, and what they leave is a bounded queue again.
-/

namespace ResourcePool.Async

open Container Exceptions

/-- A step of the queue, or an operation which throws at one of its calls. -/
inductive InterruptedEvent (Request IoContext : Type) where
  | pushing (event : ThrowingEvent Request IoContext)
  | popThrows (call : RemovalCall)
  /-- The call of `cancel` by the handler of a completed wait throws. -/
  | deliverThrows (completion : ℕ) (call : RemovalCall)

namespace Queue

variable {Request IoContext : Type} [DecidableEq IoContext]

/-- What a call of `cancel` by the handler of a completed wait leaves if it throws. -/
def deliverThrown (q : Queue Request IoContext) (completion : ℕ) (call : RemovalCall) :
    Option (Cancelling Request IoContext) := do
  let wait ← q.completed[completion]?
  (cancelOrThrow (some call) wait.ec wait.expiresAt).thrown
    ⟨{ q with completed := q.completed.eraseIdx completion }, []⟩

def nextOrInterrupted (q : Queue Request IoContext) :
    InterruptedEvent Request IoContext → Option (Queue Request IoContext)
  | .pushing event => q.nextOrThrown event
  | .popThrows call => (popOrThrow (some call)).thrown q
  | .deliverThrows completion call => (q.deliverThrown completion call).map Cancelling.queue

/-- The runs of a queue whose operations may throw. -/
def interruptedSystem (Request IoContext : Type) [DecidableEq IoContext] (capacity : ℕ) :
    Transition.System (Queue Request IoContext) (InterruptedEvent Request IoContext) where
  Initial q := q = constructed capacity
  step := nextOrInterrupted

/-- Neither an insertion into the multimap nor a post throws. -/
def KeepsLinks (_ : Queue Request IoContext) : InterruptedEvent Request IoContext → Prop
  | .pushing (.pushThrows call ..) => call ≠ .insert
  | .deliverThrows _ (.post _) => False
  | _ => True

/-- What an operation which throws does to the queued requests: a push has queued its
request, unless it throws in `emplace_back`; a pop has lost the oldest one; `cancel` has
posted all those which expired. -/
def EffectOfThrow (q : Queue Request IoContext) (event : InterruptedEvent Request IoContext) :
    Prop :=
  match event with
  | .pushing (.regular _) => True
  | .pushing (.pushThrows call ioContext waitDuration request now) =>
      ∀ after, q.nextOrInterrupted event = some after →
        after.contents =
          if call = .emplaceBack then q.contents
          else q.contents ++ [⟨request, ioContext, TimeTraits.add now waitDuration⟩]
  | .popThrows _ => ∀ after, q.nextOrInterrupted event = some after →
      ∃ oldest, q.contents = oldest :: after.contents
  | .deliverThrows completion call => ∀ left, q.deliverThrown completion call = some left →
      ∃ wait, q.completed[completion]? = some wait ∧
        left.posted.Perm
          ((BoundedFifo.expired q.contents wait.expiresAt).map Indexes.handedOut) ∧
        left.queue.contents = BoundedFifo.cancel q.contents wait.expiresAt

variable {q after : Queue Request IoContext}

theorem coherent_of_next (coherent : q.Coherent) {event : QueueEvent Request IoContext}
    (stepped : q.next event = some after) : after.Coherent := by
  cases event with
  | push ioContext waitDuration request now =>
      rcases CoherentQueue.push_defined ⟨q, coherent⟩ ioContext waitDuration request now with
        ⟨pushed, isPushed, left⟩
      simp only [next, isPushed, Option.map_some, Option.some.injEq] at stepped
      exact stepped ▸ left
  | pop =>
      rcases CoherentQueue.pop_defined ⟨q, coherent⟩ with ⟨popped, isPopped, left⟩
      simp only [next, isPopped, Option.map_some, Option.some.injEq] at stepped
      exact stepped ▸ left
  | cancel ec expiresAt =>
      rcases CoherentQueue.cancel_defined ⟨q, coherent⟩ ec expiresAt with
        ⟨cancelled, isCancelled, left⟩
      simp only [next, isCancelled, Option.map_some, Option.some.injEq] at stepped
      exact stepped ▸ left
  | timer ioContext =>
      simp only [next, timer, Option.some.injEq] at stepped
      rw [← stepped, getTimer_toIndexes]
      exact coherent
  | fire ioContext wait =>
      rw [(fire_toIndexes stepped).1]
      exact coherent
  | deliver completion =>
      simp only [next, deliver, Option.bind_eq_bind, Option.map_bind,
        Option.bind_eq_some_iff] at stepped
      rcases stepped with ⟨wait, _, delivered⟩
      rcases CoherentQueue.cancel_defined
        ⟨{ q with completed := q.completed.eraseIdx completion }, coherent⟩ wait.ec
          wait.expiresAt with ⟨cancelled, isCancelled, left⟩
      simp only [Function.comp_apply, isCancelled, Option.map_some, Option.some.injEq] at delivered
      exact delivered ▸ left

/-! ### Pushes and pops which throw -/

variable {ioContext : IoContext} {waitDuration : Duration} {request : Request} {now : TimePoint}

theorem coherent_pushThrows_iff (coherent : q.Coherent) {call : ThrowingCall}
    (stepped : q.nextOrThrown (.pushThrows call ioContext waitDuration request now) =
      some after) : after.Coherent ↔ call ≠ .insert := by
  rcases thrown_cases stepped with ⟨rfl, rfl⟩ | ⟨rfl, entries, ordered⟩ | ⟨isCall, queued⟩
  · simp [coherent]
  · have broken : ¬after.Coherent := fun linked =>
      not_oneToOne_of_insert coherent entries ordered (oneToOne_of_coherent linked)
    simp [broken]
  · have entered := (coherent.enqueue ioContext request (TimeTraits.add now waitDuration)).1
    have different : call ≠ .insert := by
      rintro rfl
      simp [ofUpdateTimer] at isCall
    rw [queued]
    simp [entered, different]

theorem contents_pushThrows (coherent : q.Coherent) {call : ThrowingCall} (links : call ≠ .insert)
    (stepped : q.nextOrThrown (.pushThrows call ioContext waitDuration request now) =
      some after) :
    after.contents =
      if call = .emplaceBack then q.contents
      else q.contents ++ [⟨request, ioContext, TimeTraits.add now waitDuration⟩] := by
  rcases thrown_cases stepped with ⟨rfl, rfl⟩ | ⟨isInsert, _⟩ | ⟨isCall, queued⟩
  · rw [if_pos rfl]
  · exact absurd isInsert links
  · have different : call ≠ .emplaceBack := by
      rintro rfl
      simp [ofUpdateTimer] at isCall
    rw [if_neg different, queued]
    exact (coherent.enqueue ioContext request (TimeTraits.add now waitDuration)).2

theorem popThrows (coherent : q.Coherent) {call : RemovalCall}
    (stepped : (popOrThrow (some call)).thrown q = some after) :
    after.Coherent ∧ ∃ oldest, q.contents = oldest :: after.contents := by
  rcases Throwing.thrown_eq_some.mp stepped with ⟨thrown, throws⟩
  rcases throws_popOrThrow throws with ⟨_, _, orderedIt, rest, result, ordered, dequeued⟩
  rcases coherent.dequeue ordered with ⟨oldest, left, isLeft, leftCoherent, contents⟩
  rw [dequeued, Option.some.injEq, Prod.mk.injEq] at isLeft
  rw [isLeft.2]
  exact ⟨leftCoherent, oldest, contents⟩

/-! ### Cancellations which throw -/

end Queue

namespace Indexes

variable {Request IoContext : Type} {x : Indexes Request IoContext}

/-- The loop of `cancel` leaves the multimap alone. -/
theorem expireEach_expiresAtRequests {its : List NodeId}
    {posted : List (QueuedValue Request IoContext)} {last : Indexes Request IoContext}
    (expired : x.expireEach its = some (posted, last)) :
    last.expiresAtRequests = x.expiresAtRequests := by
  induction its generalizing x posted with
  | nil =>
      simp only [expireEach, Option.some.injEq, Prod.mk.injEq] at expired
      rw [expired.2]
  | cons it rest ih =>
      simp only [expireEach, expireOne, Option.bind_eq_bind, Option.bind_eq_some_iff,
        Option.pure_def, Option.some.injEq, Prod.mk.injEq] at expired
      rcases expired with ⟨⟨_, released⟩, ⟨_, _, _, _, _, isReleased, _, rfl⟩, ⟨_, _⟩, others,
        _, rfl⟩
      simp only [release, Option.ite_none_right_eq_some, Option.some.injEq] at isReleased
      rw [ih others, ← isReleased.2]
      rfl

/-- A node which the multimap points to has its request. -/
theorem not_coherent_moveRequest {entry : Entry TimePoint NodeId}
    (member : entry ∈ x.expiresAtRequests.entries) :
    ¬(x.moveRequest entry.value).Coherent := by
  intro coherent
  rcases coherent.linked entry member with ⟨request, ioContext, contents⟩
  simp [moveRequest] at contents

end Indexes

namespace Queue

variable {Request IoContext : Type} [DecidableEq IoContext] {q after : Queue Request IoContext}

theorem deliverThrown_post {completion index : ℕ} {left : Cancelling Request IoContext}
    (thrown : q.deliverThrown completion (.post index) = some left) :
    ¬left.queue.Coherent := by
  simp only [deliverThrown, Option.bind_eq_bind, Option.bind_eq_some_iff] at thrown
  rcases thrown with ⟨wait, _, stepped⟩
  rcases Throwing.thrown_eq_some.mp stepped with ⟨call, throws⟩
  rcases throws_cancelOrThrow throws with ⟨fails, ⟨before, it, rest, indexes, isDue, _, expired,
    moved⟩ | ⟨⟨timerCall, isTimer⟩, _⟩⟩
  · have due : it ∈ (q.expiresAtRequests.upTo wait.expiresAt).map Entry.value := by
      rw [isDue]
      exact List.mem_append_right _ List.mem_cons_self
    rcases List.mem_map.mp due with ⟨entry, reached, rfl⟩
    have entries := Indexes.expireEach_expiresAtRequests expired
    rw [moved]
    apply Indexes.not_coherent_moveRequest
    rw [entries]
    exact (Multimap.mem_upTo.mp reached).1
  · rw [isTimer] at fails
    simp at fails

theorem deliverThrown_updateTimer (coherent : q.Coherent) {completion : ℕ}
    {timerCall : ThrowingCall} {left : Cancelling Request IoContext}
    (thrown : q.deliverThrown completion (.updateTimer timerCall) = some left) :
    left.queue.Coherent ∧ ∃ wait, q.completed[completion]? = some wait ∧
      left.posted.Perm ((BoundedFifo.expired q.contents wait.expiresAt).map Indexes.handedOut) ∧
      left.queue.contents = BoundedFifo.cancel q.contents wait.expiresAt := by
  simp only [deliverThrown, Option.bind_eq_bind, Option.bind_eq_some_iff] at thrown
  rcases thrown with ⟨wait, isWait, stepped⟩
  rcases Throwing.thrown_eq_some.mp stepped with ⟨call, throws⟩
  rcases throws_cancelOrThrow throws with ⟨fails, ⟨_, _, _, _, _, rfl, _⟩ | ⟨_, expired⟩⟩
  · simp at fails
  · rcases coherent.expire wait.expiresAt with ⟨posted, indexes, isExpired, rest⟩
    have same : (posted, indexes) = (left.posted, left.queue.toIndexes) :=
      Option.some.inj (isExpired.symm.trans expired)
    rw [Prod.mk.injEq] at same
    rw [same.1, same.2] at rest
    exact ⟨rest.1, wait, isWait, rest.2⟩

/-- A step keeps the indexes coherent, just if it is no failed insertion or post. -/
theorem coherent_iff_keepsLinks (coherent : q.Coherent)
    {event : InterruptedEvent Request IoContext}
    (stepped : q.nextOrInterrupted event = some after) :
    after.Coherent ↔ q.KeepsLinks event := by
  cases event with
  | pushing event =>
      cases event with
      | regular event => simp [KeepsLinks, coherent_of_next coherent stepped]
      | pushThrows call => exact coherent_pushThrows_iff coherent stepped
  | popThrows call => simp [KeepsLinks, (popThrows coherent stepped).1]
  | deliverThrows completion call =>
      simp only [nextOrInterrupted, Option.map_eq_some_iff] at stepped
      rcases stepped with ⟨left, thrown, rfl⟩
      cases call with
      | post index => simp [KeepsLinks, deliverThrown_post thrown]
      | updateTimer call => simp [KeepsLinks, (deliverThrown_updateTimer coherent thrown).1]

theorem effectOfThrow (coherent : q.Coherent) {event : InterruptedEvent Request IoContext}
    (links : q.KeepsLinks event) : q.EffectOfThrow event := by
  cases event with
  | pushing event =>
      cases event with
      | regular event => trivial
      | pushThrows call => exact fun after stepped => contents_pushThrows coherent links stepped
  | popThrows call => exact fun after stepped => (popThrows coherent stepped).2
  | deliverThrows completion call =>
      cases call with
      | post index => exact links.elim
      | updateTimer call => exact fun left thrown => (deliverThrown_updateTimer coherent thrown).2

/--
In a run in which `push`, `pop` and `cancel` may throw at each of their calls, the indexes
agree throughout, just if no insertion into the multimap and no post throws. In such a run a
push which throws behind `emplace_back` has queued its request, a pop which throws has lost
the oldest request and no other, and a `cancel` which throws has posted all that expired.
-/
theorem coherent_throughout_iff_keepsLinks {capacity : ℕ} {q final : Queue Request IoContext}
    {events : List (InterruptedEvent Request IoContext)}
    (isInitial : (interruptedSystem Request IoContext capacity).Initial q)
    (ran : (interruptedSystem Request IoContext capacity).execute q events = some final) :
    ((interruptedSystem Request IoContext capacity).Throughout (fun q => q.Coherent) q events ↔
      (interruptedSystem Request IoContext capacity).EachStep KeepsLinks q events) ∧
    ((interruptedSystem Request IoContext capacity).EachStep KeepsLinks q events →
      (interruptedSystem Request IoContext capacity).EachStep EffectOfThrow q events) := by
  have coherent : q.Coherent := by
    rcases isInitial with rfl
    exact Indexes.empty_coherent
  have preserved : ∀ before event after, before.Coherent → before.KeepsLinks event →
      (interruptedSystem Request IoContext capacity).step before event = some after →
        after.Coherent := fun _ _ _ holds links stepped =>
    (coherent_iff_keepsLinks holds stepped).mpr links
  constructor
  · apply Transition.System.throughout_iff_eachStep (fun _ _ _ (_ : True) _ => trivial)
      (fun before event after _ => preserved before event after) ?_ trivial coherent ran
    intro before event after _ holds stepped stillCoherent
    exact (coherent_iff_keepsLinks holds stepped).mp stillCoherent
  · exact Transition.System.EachStep.of_preserved preserved
      (fun _ _ holds links => effectOfThrow holds links) coherent

instance : DecidableRel (KeepsLinks :
    Queue Request IoContext → InterruptedEvent Request IoContext → Prop)
  | _, .pushing (.regular _) => .isTrue trivial
  | _, .pushing (.pushThrows call ..) => inferInstanceAs (Decidable (call ≠ .insert))
  | _, .popThrows _ => .isTrue trivial
  | _, .deliverThrows _ (.post _) => .isFalse id
  | _, .deliverThrows _ (.updateTimer _) => .isTrue trivial

/-- A push throws in `async_wait`, and after another push a pop does so in `expires_at`. -/
def interruptedRun : List (InterruptedEvent ℕ Bool) :=
  [.pushing (.pushThrows .asyncWait false (Ticks.clamp 5) 10 (Ticks.clamp 100)),
    .pushing (.regular (.push true (Ticks.clamp 7) 11 (Ticks.clamp 101))),
    .popThrows (.updateTimer .expiresAt)]

/-- The request of the first push is queued and lost by the pop. -/
theorem coherent_throughout_interrupted :
    ∃ q, (interruptedSystem ℕ Bool 3).execute (constructed 3) interruptedRun = some q ∧
      (interruptedSystem ℕ Bool 3).Throughout (fun q => q.Coherent) (constructed 3)
        interruptedRun ∧
      q.contents = [⟨11, true, Ticks.clamp 108⟩] := by
  have ran : ((interruptedSystem ℕ Bool 3).execute (constructed 3) interruptedRun).isSome := rfl
  exact ⟨_, (Option.some_get ran).symm,
    (coherent_throughout_iff_keepsLinks rfl (Option.some_get ran).symm).1.mpr (by decide), rfl⟩

-- the pop of the last request throws when it cancels the timer, which stays in the map
example : ((interruptedSystem ℕ Bool 1).execute (constructed 1)
    [.pushing (.regular (.push false (Ticks.clamp 5) 10 (Ticks.clamp 100))),
      .popThrows (.updateTimer (.cancelTimer 0))]).map (fun q => (q.contents, q.timers.keys)) =
        some ([], [false]) := rfl

-- after a failed post the queue still has its element, and `pop` finds no request in the node
example : (((interruptedSystem ℕ Bool 1).execute (constructed 1)
    [.pushing (.regular (.push false (Ticks.clamp 5) 10 (Ticks.clamp 100))),
      .pushing (.regular (.fire false 0)), .deliverThrows 0 (.post 0)]).bind pop).map Prod.fst =
        some (some ⟨none, false⟩) := rfl

end Queue

end ResourcePool.Async
