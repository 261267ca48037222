import ResourcePool.Async.Queue.Throwing

/-!
# Whether a push which throws leaves the queue as it was

The runs of a queue in which pushes may throw. `emplace_back` throws before anything has
changed, so that the run goes on as if the push had not been called. Every other call throws
too late: after a failed insertion the two indexes of the queue disagree, and after a failure
in `update_timer` the request is queued although its caller has got an exception.
-/

namespace ResourcePool.Async

/-- A step of the queue, or a push which throws at one of its calls. -/
inductive ThrowingEvent (Request IoContext : Type) where
  | regular (event : QueueEvent Request IoContext)
  | pushThrows (call : ThrowingCall) (ioContext : IoContext) (waitDuration : Duration)
      (request : Request) (now : TimePoint)

namespace Queue

variable {Request IoContext : Type} [DecidableEq IoContext]

/-- The queue after an event. A push throws at a call only if it comes to it. -/
def nextOrThrown (q : Queue Request IoContext) :
    ThrowingEvent Request IoContext → Option (Queue Request IoContext)
  | .regular event => q.next event
  | .pushThrows call ioContext waitDuration request now =>
      match (pushOrThrow (some call) ioContext waitDuration now).run.run ⟨q, some request⟩ with
      | some (.error _, left) => some left.queue
      | _ => none

/-- The runs of a queue whose pushes may throw. -/
def throwingSystem (Request IoContext : Type) [DecidableEq IoContext] (capacity : ℕ) :
    Transition.System (Queue Request IoContext) (ThrowingEvent Request IoContext) where
  Initial q := q = constructed capacity
  step := nextOrThrown

/-- After a push which has thrown, the queued requests with their order and their deadlines
are the same as before, the two indexes correspond, and `size` and `empty` agree. -/
def LeavesAsItWas (q : Queue Request IoContext) (event : ThrowingEvent Request IoContext) : Prop :=
  match event with
  | .regular _ => True
  | .pushThrows .. => ∀ after, q.nextOrThrown event = some after →
      after.contents = q.contents ∧ OneToOne after.toIndexes ∧
        (after.size = 0 ↔ after.empty = true)

/-- A push throws only in `emplace_back`. -/
def ThrowsInEmplaceBack (_ : Queue Request IoContext) :
    ThrowingEvent Request IoContext → Prop
  | .regular _ => True
  | .pushThrows call .. => call = .emplaceBack

instance : DecidableRel (ThrowsInEmplaceBack :
    Queue Request IoContext → ThrowingEvent Request IoContext → Prop)
  | _, .regular _ => .isTrue trivial
  | _, .pushThrows call .. => inferInstanceAs (Decidable (call = .emplaceBack))

variable {q after : Queue Request IoContext} {call : ThrowingCall} {ioContext : IoContext}
  {waitDuration : Duration} {request : Request} {now : TimePoint}

/-- What a push which throws has done, by the call at which it throws. -/
theorem thrown_cases
    (stepped : q.nextOrThrown (.pushThrows call ioContext waitDuration request now) =
      some after) :
    call = .emplaceBack ∧ after = q ∨
      call = .insert ∧ after.expiresAtRequests = q.expiresAtRequests ∧
        after.orderedRequests = q.orderedRequests ++ [q.acquire.1] ∨
      call ∈ ofUpdateTimer ∧ after.toIndexes =
        q.enqueue ioContext request (TimeTraits.add now waitDuration) := by
  simp only [nextOrThrown] at stepped
  split at stepped
  · next thrown left throws =>
      rcases Option.some.inj stepped with rfl
      rcases throws_pushOrThrow throws with ⟨fails, _, effect⟩
      rcases Option.some.inj fails with rfl
      rcases effect with ⟨isCall, rfl⟩ | ⟨isCall, _, lists⟩ | ⟨isCall, _, queued⟩
      · exact Or.inl ⟨isCall, rfl⟩
      · exact Or.inr (Or.inl ⟨isCall, lists⟩)
      · exact Or.inr (Or.inr ⟨isCall, queued⟩)
  · contradiction

omit [DecidableEq IoContext] in
theorem size_eq_zero_iff (coherent : q.Coherent) : q.size = 0 ↔ q.empty = true := by
  rw [empty_iff coherent, size, coherent.size_eq, List.length_eq_zero_iff]

omit [DecidableEq IoContext] in
/-- A node which has been acquired is not linked by the elements there were before. -/
theorem not_oneToOne_of_insert (coherent : q.Coherent)
    (entries : after.expiresAtRequests = q.expiresAtRequests)
    (ordered : after.orderedRequests = q.orderedRequests ++ [q.acquire.1]) :
    ¬OneToOne after.toIndexes := by
  intro linked
  have acquired : q.acquire.1 ∈ after.orderedRequests := by simp [ordered]
  rcases linked.element_of_node _ acquired with ⟨entry, member, same, _⟩
  rw [entries] at member
  have older := coherent.ordered_of_entry member
  rcases coherent.acquire_eq with ⟨it, _, _, isAcquired, unused, _⟩
  rw [same, isAcquired] at older
  exact unused older

theorem leavesAsItWas_iff (coherent : q.Coherent)
    (stepped : q.nextOrThrown (.pushThrows call ioContext waitDuration request now) =
      some after) :
    q.LeavesAsItWas (.pushThrows call ioContext waitDuration request now) ↔
      call = .emplaceBack := by
  have effect := thrown_cases stepped
  constructor
  · intro leaves
    rcases leaves after stepped with ⟨contents, linked, _⟩
    rcases effect with ⟨isCall, _⟩ | ⟨_, entries, ordered⟩ | ⟨_, queued⟩
    · exact isCall
    · exact absurd linked (not_oneToOne_of_insert coherent entries ordered)
    · have appended := (coherent.enqueue ioContext request (TimeTraits.add now waitDuration)).2
      rw [queued, appended] at contents
      simp at contents
  · rintro rfl other otherStepped
    rw [stepped, Option.some.injEq] at otherStepped
    subst otherStepped
    rcases effect with ⟨_, rfl⟩ | ⟨isInsert, _⟩ | ⟨isUpdate, _⟩
    · exact ⟨rfl, oneToOne_of_coherent coherent, size_eq_zero_iff coherent⟩
    · contradiction
    · simp [ofUpdateTimer] at isUpdate

/--
In a run in which pushes may throw, each push which throws leaves the queue as it was, just
if each of them throws in `emplace_back`.
-/
theorem leavesAsItWas_iff_throwsInEmplaceBack {capacity : ℕ} {q final : Queue Request IoContext}
    {events : List (ThrowingEvent Request IoContext)}
    (isInitial : (throwingSystem Request IoContext capacity).Initial q)
    (ran : (throwingSystem Request IoContext capacity).execute q events = some final) :
    (throwingSystem Request IoContext capacity).EachStep LeavesAsItWas q events ↔
      (throwingSystem Request IoContext capacity).EachStep ThrowsInEmplaceBack q events := by
  have holds : q.Coherent ∧ q.contents.length ≤ q.capacity := by
    rcases isInitial with rfl
    exact ⟨Indexes.empty_coherent, Nat.zero_le _⟩
  apply Iff.symm
  apply Transition.System.eachStep_iff_of_preserved (motive := fun q : Queue Request IoContext =>
    q.Coherent ∧ q.contents.length ≤ q.capacity) ?_ ?_ holds ran
  · rintro before event after ⟨coherent, bounded⟩ meets stepped
    cases event with
    | regular event =>
        rcases coherent_next coherent bounded stepped with ⟨stillCoherent, stillBounded, _⟩
        exact ⟨stillCoherent, stillBounded⟩
    | pushThrows call ioContext waitDuration request now =>
        rcases thrown_cases stepped with ⟨_, rfl⟩ | ⟨isInsert, _⟩ | ⟨isUpdate, _⟩
        · exact ⟨coherent, bounded⟩
        · rw [ThrowsInEmplaceBack, isInsert] at meets
          contradiction
        · rw [ThrowsInEmplaceBack] at meets
          simp [meets, ofUpdateTimer] at isUpdate
  · rintro before event after ⟨coherent, _⟩ stepped
    cases event with
    | regular event => exact Iff.rfl
    | pushThrows call ioContext waitDuration request now =>
        exact (leavesAsItWas_iff coherent stepped).symm

-- a push into a new queue comes to each of its calls
example : ∀ call ∈ [.emplaceBack, .insert] ++ ofUpdateTimer,
    ((constructed 1 : Queue ℕ Bool).nextOrThrown
      (.pushThrows call false (Ticks.clamp 5) 10 (Ticks.clamp 100))).isSome = true := by
  decide

/-- A push throws in `emplace_back`, and the next one succeeds. -/
def retryingRun : List (ThrowingEvent ℕ Bool) :=
  [.pushThrows .emplaceBack false (Ticks.clamp 5) 10 (Ticks.clamp 100),
    .regular (.push false (Ticks.clamp 5) 10 (Ticks.clamp 101)), .regular .pop]

theorem leavesAsItWas_retrying :
    (throwingSystem ℕ Bool 1).EachStep LeavesAsItWas (constructed 1) retryingRun := by
  have ran : ((throwingSystem ℕ Bool 1).execute (constructed 1) retryingRun).isSome := rfl
  exact (leavesAsItWas_iff_throwsInEmplaceBack rfl (Option.some_get ran).symm).mpr (by decide)

/-- The insertion into the multimap throws. -/
def failedInsertion : List (ThrowingEvent ℕ Bool) :=
  [.pushThrows .insert false (Ticks.clamp 5) 10 (Ticks.clamp 100)]

/-- The queue has size zero and is not empty, and the next `pop` erases through a singular
iterator. -/
theorem insertion_leaves_half_linked :
    ∃ q, (throwingSystem ℕ Bool 1).execute (constructed 1) failedInsertion = some q ∧
      q.size = 0 ∧ q.empty = false ∧ q.pop.isNone = true ∧
      ¬(throwingSystem ℕ Bool 1).EachStep LeavesAsItWas (constructed 1) failedInsertion := by
  have ran : ((throwingSystem ℕ Bool 1).execute (constructed 1) failedInsertion).isSome := rfl
  refine ⟨_, (Option.some_get ran).symm, rfl, rfl, rfl, ?_⟩
  rintro ⟨leaves, _⟩
  have agree := (leaves _ rfl).2.2.mp rfl
  contradiction

end Queue

end ResourcePool.Async
