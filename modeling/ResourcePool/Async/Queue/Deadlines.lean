import ResourcePool.Async.Queue.Timers

/-!
# No request expires early

The runs of the queue in time: each event happens at a clock reading, and a request is
queued together with the reading at its push and its wait duration, as a `Ticket`. The
timers and the clock are those of the environment. `Timely` says what is assumed of them:
the clock does not go back, and a wait completes with success only once the expiry of its
timer has been reached.
-/

namespace ResourcePool.Async

open Container

/-- A request together with the data of its push. -/
structure Ticket (Request : Type) where
  request : Request
  pushedAt : TimePoint
  waitDuration : Duration
  deriving DecidableEq

/-- The deadline of a request: the saturating sum of the data of its push. -/
def Ticket.deadline {Request : Type} (ticket : Ticket Request) : TimePoint :=
  TimeTraits.add ticket.pushedAt ticket.waitDuration

/-- What happens to a queue at some time. -/
inductive TimedAction (Request IoContext : Type) where
  | push (ioContext : IoContext) (waitDuration : Duration) (request : Request)
  | pop
  | timer (ioContext : IoContext)
  | fire (ioContext : IoContext) (wait : ℕ)
  | deliver (completion : ℕ)

/-- An action with the clock reading at which it happens. -/
structure TimedEvent (Request IoContext : Type) where
  action : TimedAction Request IoContext
  now : TimePoint

/-- The event of the queue, whose requests carry their tickets. -/
def TimedEvent.queueEvent {Request IoContext : Type} (event : TimedEvent Request IoContext) :
    QueueEvent (Ticket Request) IoContext :=
  match event.action with
  | .push ioContext waitDuration request =>
      .push ioContext waitDuration ⟨request, event.now, waitDuration⟩ event.now
  | .pop => .pop
  | .timer ioContext => .timer ioContext
  | .fire ioContext wait => .fire ioContext wait
  | .deliver completion => .deliver completion

structure TimedQueue (Request IoContext : Type) where
  queue : Queue (Ticket Request) IoContext
  clock : TimePoint

namespace TimedQueue

variable {Request IoContext : Type} [DecidableEq IoContext]

/-- The queue and the clock after an event. -/
def next (state : TimedQueue Request IoContext) (event : TimedEvent Request IoContext) :
    Option (TimedQueue Request IoContext) :=
  (state.queue.next event.queueEvent).map fun after => ⟨after, event.now⟩

/-- The runs of a queue in time. -/
def system (Request IoContext : Type) [DecidableEq IoContext] (capacity : ℕ) :
    Transition.System (TimedQueue Request IoContext) (TimedEvent Request IoContext) where
  Initial state := state.queue = Queue.constructed capacity
  step := next

/-- The clock does not go back, and no wait completes with success before the time for
which it is armed. -/
def Timely (state : TimedQueue Request IoContext) (event : TimedEvent Request IoContext) : Prop :=
  state.clock ≤ event.now ∧
    match event.action with
    | .fire ioContext _ =>
        ∀ timer ∈ state.queue.timers.lookup ioContext, timer.expiresAt ≤ event.now
    | _ => True

instance (state : TimedQueue Request IoContext) (event : TimedEvent Request IoContext) :
    Decidable (state.Timely event) :=
  match event with
  | ⟨.fire ioContext _, now⟩ =>
      inferInstanceAs (Decidable (state.clock ≤ now ∧
        ∀ timer ∈ state.queue.timers.lookup ioContext, timer.expiresAt ≤ now))
  | ⟨.push _ _ _, now⟩ | ⟨.pop, now⟩ | ⟨.timer _, now⟩ | ⟨.deliver _, now⟩ =>
      inferInstanceAs (Decidable (state.clock ≤ now ∧ True))

/-- Deadlines are those of the tickets, armed waits have captured the expiry of their
timer, and the bounds of successful completions have been reached. -/
structure Punctual (state : TimedQueue Request IoContext) : Prop where
  coherent : state.queue.Coherent
  bounded : state.queue.contents.length ≤ state.queue.capacity
  deadlines : ∀ pending ∈ state.queue.contents, pending.deadline = pending.item.deadline
  captured : ∀ ioContext timer, state.queue.timers.lookup ioContext = some timer →
    ∀ expiresAt ∈ timer.waits, expiresAt = timer.expiresAt
  reached : ∀ wait ∈ state.queue.completed, wait.ec = .success → wait.expiresAt ≤ state.clock

end TimedQueue

namespace Queue

variable {Request IoContext : Type} [DecidableEq IoContext]

/-- A step queues at most the request of a push, and changes no other. -/
theorem contents_next {q after : Queue Request IoContext} {event : QueueEvent Request IoContext}
    (coherent : q.Coherent) (stepped : q.next event = some after)
    {pending : Pending Request IoContext TimePoint} (member : pending ∈ after.contents) :
    pending ∈ q.contents ∨ ∃ ioContext waitDuration request now,
      event = .push ioContext waitDuration request now ∧
        pending = ⟨request, ioContext, TimeTraits.add now waitDuration⟩ := by
  have cancelled : ∀ (before : Queue Request IoContext) (ec : WaitResult) (bound : TimePoint),
      before.Coherent → (before.cancel ec bound).map Prod.snd = some after →
        pending ∈ before.contents := by
    intro before ec bound beforeCoherent result
    cases ec with
    | operationAborted =>
        rw [cancel_aborted, Option.map_some, Option.some.injEq] at result
        subst result
        exact member
    | success =>
        rcases cancel_success beforeCoherent bound with
          ⟨posted, other, cancelled, _, _, _, remaining⟩
        rw [cancelled, Option.map_some, Option.some.injEq] at result
        subst result
        rw [remaining] at member
        exact List.mem_of_mem_filter member
  cases event with
  | push ioContext waitDuration request now =>
      rw [next] at stepped
      rcases Nat.lt_or_ge q.contents.length q.capacity with room | full
      · rcases push_accepted coherent room ioContext waitDuration request now with
          ⟨other, pushed, _, _, appended⟩
        rw [pushed, Option.map_some, Option.some.injEq] at stepped
        subst stepped
        rw [appended, List.mem_append, List.mem_singleton] at member
        exact member.imp_right fun equal => ⟨_, _, _, _, rfl, equal⟩
      · rw [push_refused coherent full, Option.map_some, Option.some.injEq] at stepped
        subst stepped
        exact Or.inl member
  | pop =>
      rw [next] at stepped
      cases split : q.contents with
      | nil =>
          rw [pop_nothing coherent split, Option.map_some, Option.some.injEq] at stepped
          subst stepped
          exact Or.inl (split ▸ member)
      | cons oldest rest =>
          rcases pop_oldest coherent split with ⟨other, popped, _, _, remaining⟩
          rw [popped, Option.map_some, Option.some.injEq] at stepped
          subst stepped
          exact Or.inl (List.mem_cons_of_mem _ (remaining ▸ member))
  | cancel ec expiresAt => exact Or.inl (cancelled q ec expiresAt coherent stepped)
  | timer ioContext =>
      simp only [next, timer, Option.some.injEq] at stepped
      subst stepped
      exact Or.inl (by simpa using member)
  | fire ioContext wait =>
      rw [(fire_toIndexes stepped).1] at member
      exact Or.inl member
  | deliver completion =>
      simp only [next, deliver, Option.bind_eq_bind, Option.map_bind,
        Option.bind_eq_some_iff] at stepped
      rcases stepped with ⟨wait, _, result⟩
      exact Or.inl (cancelled { q with completed := q.completed.eraseIdx completion } _ _
        coherent result)

theorem captured_of_timerStep {q after : Queue Request IoContext}
    {event : QueueEvent Request IoContext} (timerStep : TimerStep q event after)
    (captured : ∀ ioContext timer, q.timers.lookup ioContext = some timer →
      ∀ expiresAt ∈ timer.waits, expiresAt = timer.expiresAt)
    {ioContext : IoContext} {timer : Timer} (found : after.timers.lookup ioContext = some timer)
    {expiresAt : TimePoint} (armed : expiresAt ∈ timer.waits) : expiresAt = timer.expiresAt := by
  cases timerStep with
  | unchanged same => exact captured ioContext timer (same ▸ found) expiresAt armed
  | updated before timers completed isUpdate =>
      rcases updateTimer_cases isUpdate with ⟨_, rfl⟩ | ⟨earliest, _, own, _, _, _, rfl⟩
      · simp at found
      · by_cases equal : ioContext = own
        · subst equal
          rw [AList.lookup_insert, Option.some.injEq] at found
          subst found
          simpa using armed
        · rw [AList.lookup_insert_ne equal, timers] at found
          exact captured ioContext timer found expiresAt armed
  | created own missing isNew =>
      subst isNew
      by_cases equal : ioContext = own
      · subst equal
        rw [AList.lookup_insert, Option.some.injEq] at found
        subst found
        simp [Timer.start] at armed
      · rw [AList.lookup_insert_ne equal] at found
        exact captured ioContext timer found expiresAt armed
  | fired own wait fires firedAt isFire isTimer isArmed completes =>
      subst completes
      by_cases equal : ioContext = own
      · subst equal
        rw [AList.lookup_insert, Option.some.injEq] at found
        subst found
        exact captured ioContext fires isTimer expiresAt (List.mem_of_mem_eraseIdx armed)
      · rw [AList.lookup_insert_ne equal] at found
        exact captured ioContext timer found expiresAt armed
  | discarded completion wait isCompleted aborted removed =>
      subst removed
      exact captured ioContext timer found expiresAt armed

theorem completed_of_timerStep {q after : Queue Request IoContext}
    {event : QueueEvent Request IoContext} (timerStep : TimerStep q event after)
    {wait : WaitCompletion IoContext} (member : wait ∈ after.completed)
    (success : wait.ec = .success) :
    wait ∈ q.completed ∨ ∃ index timer, event = .fire wait.ioContext index ∧
      q.timers.lookup wait.ioContext = some timer ∧ wait.expiresAt ∈ timer.waits := by
  cases timerStep with
  | unchanged same =>
      subst same
      exact Or.inl member
  | updated before timers completed isUpdate =>
      rcases completed_of_updateTimer isUpdate member with older | aborted
      · exact Or.inl (completed wait older)
      · rw [success] at aborted
        contradiction
  | created ioContext missing isNew =>
      subst isNew
      exact Or.inl member
  | fired ioContext index timer expiresAt isFire found armed completes =>
      subst completes
      rw [List.mem_append, List.mem_singleton] at member
      rcases member with older | rfl
      · exact Or.inl older
      · exact Or.inr ⟨index, timer, isFire, found, List.mem_of_getElem? armed⟩
  | discarded completion other isCompleted aborted removed =>
      subst removed
      exact Or.inl (List.mem_of_mem_eraseIdx member)

end Queue

namespace TimedQueue

variable {Request IoContext : Type} [DecidableEq IoContext]

theorem Punctual.step {state after : TimedQueue Request IoContext}
    {event : TimedEvent Request IoContext} (punctual : state.Punctual)
    (timely : state.Timely event)
    (stepped : state.next event = some after) : after.Punctual := by
  simp only [next, Option.map_eq_some_iff] at stepped
  rcases stepped with ⟨queue, stepped, rfl⟩
  have timerStep := Queue.timerStep_of_next stepped
  rcases Queue.coherent_next punctual.coherent punctual.bounded stepped with
    ⟨coherent, bounded, _⟩
  refine ⟨coherent, bounded, ?_, ?_, ?_⟩
  · intro pending member
    rcases Queue.contents_next punctual.coherent stepped member with
      older | ⟨ioContext, waitDuration, ticket, now, isPush, rfl⟩
    · exact punctual.deadlines pending older
    · rcases event with ⟨action, time⟩
      cases action <;> simp only [TimedEvent.queueEvent, reduceCtorEq] at isPush
      simp only [QueueEvent.push.injEq] at isPush
      rcases isPush with ⟨_, rfl, rfl, rfl⟩
      rfl
  · intro ioContext timer found expiresAt armed
    exact Queue.captured_of_timerStep timerStep punctual.captured found armed
  · intro wait member success
    rcases Queue.completed_of_timerStep timerStep member success with
      older | ⟨index, timer, isFire, found, armed⟩
    · exact (punctual.reached wait older success).trans timely.1
    · have fires : event.action = .fire wait.ioContext index := by
        rcases event with ⟨action, time⟩
        cases action <;> simp only [TimedEvent.queueEvent, reduceCtorEq] at isFire
        simpa using isFire
      have due := timely.2
      rw [fires] at due
      rw [punctual.captured _ timer found _ armed]
      exact due timer found

theorem punctual_of_reachable {capacity : ℕ} {state : TimedQueue Request IoContext}
    (reached : (system Request IoContext capacity).ReachableVia Timely state) :
    state.Punctual := by
  apply reached.invariant
  · rintro ⟨queue, clock⟩ rfl
    refine ⟨Indexes.empty_coherent, Nat.zero_le _, ?_, ?_, ?_⟩
    · intro pending member
      simp [Queue.constructed] at member
    · intro ioContext timer found
      simp [Queue.constructed] at found
    · intro wait member
      simp [Queue.constructed] at member
  · intro before event after punctual timely stepped
    exact punctual.step timely stepped

/--
A request expires only once its deadline has come: whichever completed wait calls
`cancel`, the deadlines of the requests it posts as expired are not ahead of the clock.
-/
theorem expires_no_earlier {capacity : ℕ} {state : TimedQueue Request IoContext}
    (reached : (system Request IoContext capacity).ReachableVia Timely state) {completion : ℕ}
    {now : TimePoint} (timely : state.Timely ⟨.deliver completion, now⟩)
    {posted : List (QueuedValue (Ticket Request) IoContext)}
    {after : Queue (Ticket Request) IoContext}
    (delivered : state.queue.deliver completion = some (posted, after))
    {value : QueuedValue (Ticket Request) IoContext} (expired : value ∈ posted) :
    ∃ ticket, value.request = some ticket ∧
      TimeTraits.add ticket.pushedAt ticket.waitDuration ≤ now := by
  have punctual := punctual_of_reachable reached
  simp only [Queue.deliver, Option.bind_eq_bind, Option.bind_eq_some_iff] at delivered
  rcases delivered with ⟨wait, isCompleted, cancelled⟩
  cases result : wait.ec with
  | operationAborted =>
      rw [result, Queue.cancel_aborted, Option.some.injEq, Prod.mk.injEq] at cancelled
      rw [← cancelled.1] at expired
      simp at expired
  | success =>
      rw [result] at cancelled
      have coherent : { state.queue with
          completed := state.queue.completed.eraseIdx completion }.Coherent := punctual.coherent
      rcases Queue.cancel_success coherent wait.expiresAt with
        ⟨others, left, isCancelled, _, _, perm, _⟩
      rw [isCancelled, Option.some.injEq, Prod.mk.injEq] at cancelled
      rcases cancelled with ⟨rfl, rfl⟩
      rcases List.mem_map.mp (perm.mem_iff.mp expired) with ⟨pending, isExpired, rfl⟩
      rw [BoundedFifo.expired, List.mem_filter, decide_eq_true_iff] at isExpired
      refine ⟨pending.item, rfl, ?_⟩
      calc TimeTraits.add pending.item.pushedAt pending.item.waitDuration
          = pending.deadline := (punctual.deadlines pending isExpired.1).symm
        _ ≤ wait.expiresAt := isExpired.2
        _ ≤ state.clock := punctual.reached wait (List.mem_of_getElem? isCompleted) result
        _ ≤ now := timely.1

/-- Of two requests the second expires first, when the wait for it has fired. -/
def secondExpiresFirst : List (TimedEvent ℕ Bool) :=
  [⟨.push false (Ticks.clamp 8) 10, Ticks.clamp 100⟩,
    ⟨.push true (Ticks.clamp 5) 11, Ticks.clamp 101⟩,
    ⟨.fire true 0, Ticks.clamp 106⟩]

theorem expires_no_earlier_second_first :
    ∃ state posted after,
      (system ℕ Bool 2).execute ⟨Queue.constructed 2, Ticks.clamp 100⟩ secondExpiresFirst =
        some state ∧
      state.queue.deliver 0 = some (posted, after) ∧ posted ≠ [] ∧
      ∀ value ∈ posted, ∃ ticket, value.request = some ticket ∧
        TimeTraits.add ticket.pushedAt ticket.waitDuration ≤ Ticks.clamp 107 := by
  have ran : ((system ℕ Bool 2).execute ⟨Queue.constructed 2, Ticks.clamp 100⟩
      secondExpiresFirst).isSome := rfl
  have meets : (system ℕ Bool 2).EachStep Timely ⟨Queue.constructed 2, Ticks.clamp 100⟩
      secondExpiresFirst := by decide
  have reached :=
    (Transition.System.ReachableVia.start rfl).execute meets (Option.some_get ran).symm
  have timely : Timely (Option.get _ ran) ⟨.deliver 0, Ticks.clamp 107⟩ :=
    ⟨show Ticks.clamp 106 ≤ Ticks.clamp 107 by decide, trivial⟩
  refine ⟨_, _, _, (Option.some_get ran).symm, rfl, List.cons_ne_nil _ _, ?_⟩
  intro value expired
  exact expires_no_earlier reached timely rfl expired

end TimedQueue

end ResourcePool.Async
