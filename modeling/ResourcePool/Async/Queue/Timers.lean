import ResourcePool.Async.Queue.Refinement
import ResourcePool.Container.Positions

/-!
# The timers of the queue

Every operation which changes the queue ends in `update_timer`, so what a step does to
the timers has few cases, which `TimerStep` lists. Two invariants follow from them. The
earliest deadline is always watched, by an armed wait or by a completed one whose handler
has still to run. And a completed wait never carries a bound ahead of the clock, so that
no request expires before its deadline, whichever waits complete late.
-/

namespace ResourcePool.Async

open Container

namespace Queue

variable {Request IoContext : Type} [DecidableEq IoContext]

/-! ### What a step does to the timers -/

theorem updateTimer_cases {q after : Queue Request IoContext}
    (updated : q.updateTimer = some after) :
    (q.expiresAtRequests.entries = [] ∧
      after = { q with
        timers := ∅
        completed := q.completed ++ q.timers.entries.flatMap fun v => v.2.abort v.1 }) ∨
    ∃ earliest rest ioContext, ∃ timer : Timer,
      q.expiresAtRequests.entries = earliest :: rest ∧
      (q.node earliest.value).ioContext = some ioContext ∧
      after = { q with
        timers := q.timers.insert ioContext ⟨earliest.key, [earliest.key]⟩
        completed := q.completed ++ timer.abort ioContext } := by
  simp only [updateTimer] at updated
  split at updated
  · next none => exact Or.inl ⟨none, (Option.some.inj updated).symm⟩
  · next earliest rest first =>
      simp only [Option.bind_eq_bind, Option.bind_eq_some_iff, Option.pure_def,
        Option.some.injEq] at updated
      rcases updated with ⟨ioContext, hasContext, rfl⟩
      refine Or.inr ⟨earliest, rest, ioContext, (q.getTimer ioContext).1, first, hasContext, ?_⟩
      simp only [getTimer]
      split
      · rfl
      · simp only [AList.insert_insert]

theorem toIndexes_of_updateTimer {q after : Queue Request IoContext}
    (updated : q.updateTimer = some after) : after.toIndexes = q.toIndexes := by
  rcases updateTimer_cases updated with ⟨_, rfl⟩ | ⟨_, _, _, _, _, _, rfl⟩
  · rfl
  · rfl

omit [DecidableEq IoContext] in
theorem abort_ec {timer : Timer} {ioContext : IoContext} {wait : WaitCompletion IoContext}
    (member : wait ∈ timer.abort ioContext) : wait.ec = .operationAborted := by
  rcases List.mem_map.mp member with ⟨expiresAt, _, rfl⟩
  rfl

theorem completed_of_updateTimer {q after : Queue Request IoContext}
    (updated : q.updateTimer = some after) {wait : WaitCompletion IoContext}
    (member : wait ∈ after.completed) :
    wait ∈ q.completed ∨ wait.ec = .operationAborted := by
  rcases updateTimer_cases updated with ⟨_, rfl⟩ | ⟨_, _, _, timer, _, _, rfl⟩
  · rcases List.mem_append.mp member with older | aborted
    · exact Or.inl older
    · rcases List.mem_flatMap.mp aborted with ⟨v, _, isAborted⟩
      exact Or.inr (abort_ec isAborted)
  · rcases List.mem_append.mp member with older | aborted
    · exact Or.inl older
    · exact Or.inr (abort_ec aborted)

/-- What an event does to the timers and their completed waits. -/
inductive TimerStep (q : Queue Request IoContext) (event : QueueEvent Request IoContext)
    (after : Queue Request IoContext) : Prop where
  | unchanged (same : after = q)
  | updated (before : Queue Request IoContext) (timers : before.timers = q.timers)
      (completed : ∀ wait ∈ before.completed, wait ∈ q.completed)
      (isUpdate : before.updateTimer = some after)
  | created (ioContext : IoContext) (missing : q.timers.lookup ioContext = none)
      (isNew : after = { q with timers := q.timers.insert ioContext Timer.start })
  | fired (ioContext : IoContext) (wait : ℕ) (timer : Timer) (expiresAt : TimePoint)
      (isFire : event = .fire ioContext wait)
      (found : q.timers.lookup ioContext = some timer)
      (armed : timer.waits[wait]? = some expiresAt)
      (completes : after = { q with
        timers := q.timers.insert ioContext { timer with waits := timer.waits.eraseIdx wait }
        completed := q.completed ++ [⟨ioContext, .success, expiresAt⟩] })
  | discarded (completion : ℕ) (wait : WaitCompletion IoContext)
      (isCompleted : q.completed[completion]? = some wait) (aborted : wait.ec = .operationAborted)
      (removed : after = { q with completed := q.completed.eraseIdx completion })

theorem cancel_timerStep {q after : Queue Request IoContext} {ec : WaitResult}
    {bound : TimePoint} (cancelled : (q.cancel ec bound).map Prod.snd = some after) :
    ec = .operationAborted ∧ after = q ∨
      ∃ before : Queue Request IoContext, before.timers = q.timers ∧
        before.completed = q.completed ∧ before.updateTimer = some after := by
  cases ec with
  | operationAborted =>
      rw [cancel_aborted, Option.map_some, Option.some.injEq] at cancelled
      exact Or.inl ⟨rfl, cancelled.symm⟩
  | success =>
      simp only [cancel, Option.bind_eq_bind, Option.pure_def, Option.map_eq_some_iff,
        Option.bind_eq_some_iff, Option.some.injEq] at cancelled
      rcases cancelled with ⟨_, ⟨⟨posted, indexes⟩, _, updated, isUpdate, rfl⟩, rfl⟩
      exact Or.inr ⟨{ q with toIndexes := indexes }, rfl, rfl, isUpdate⟩

theorem timerStep_of_next {q after : Queue Request IoContext}
    {event : QueueEvent Request IoContext} (stepped : q.next event = some after) :
    TimerStep q event after := by
  cases event with
  | push ioContext waitDuration request now =>
      simp only [next, push] at stepped
      split at stepped
      · simp only [Option.bind_eq_bind, Option.pure_def, Option.map_eq_some_iff,
          Option.bind_eq_some_iff, Option.some.injEq] at stepped
        rcases stepped with ⟨_, ⟨updated, isUpdate, rfl⟩, rfl⟩
        exact .updated
          { q with toIndexes := q.enqueue ioContext request (TimeTraits.add now waitDuration) }
          rfl (fun _ member => member) isUpdate
      · simp only [Option.pure_def, Option.map_some, Option.some.injEq] at stepped
        exact .unchanged stepped.symm
  | pop =>
      simp only [next, pop] at stepped
      split at stepped
      · simp only [Option.pure_def, Option.map_some, Option.some.injEq] at stepped
        exact .unchanged stepped.symm
      · simp only [Option.bind_eq_bind, Option.pure_def, Option.map_eq_some_iff,
          Option.bind_eq_some_iff, Option.some.injEq] at stepped
        rcases stepped with ⟨_, ⟨⟨result, indexes⟩, _, updated, isUpdate, rfl⟩, rfl⟩
        exact .updated { q with toIndexes := indexes } rfl (fun _ member => member) isUpdate
  | cancel ec expiresAt =>
      rcases cancel_timerStep stepped with ⟨_, same⟩ | ⟨before, timers, completed, isUpdate⟩
      · exact .unchanged same
      · exact .updated before timers (fun _ member => completed ▸ member) isUpdate
  | timer ioContext =>
      simp only [next, timer, getTimer, Option.some.injEq] at stepped
      split at stepped
      · exact .unchanged stepped.symm
      · next missing => exact .created ioContext missing stepped.symm
  | fire ioContext wait =>
      simp only [next, fire, Option.bind_eq_bind, Option.bind_eq_some_iff, Option.pure_def,
        Option.some.injEq] at stepped
      rcases stepped with ⟨timer, found, expiresAt, armed, rfl⟩
      exact .fired ioContext wait timer expiresAt rfl found armed rfl
  | deliver completion =>
      simp only [next, deliver, Option.bind_eq_bind, Option.map_bind,
        Option.bind_eq_some_iff] at stepped
      rcases stepped with ⟨wait, isCompleted, cancelled⟩
      rcases cancel_timerStep cancelled with
        ⟨aborted, removed⟩ | ⟨before, timers, completed, isUpdate⟩
      · exact .discarded completion wait isCompleted aborted removed
      · refine .updated before timers ?_ isUpdate
        intro other member
        rw [completed] at member
        exact List.mem_of_mem_eraseIdx member

/-! ### The earliest deadline is watched -/

/-- A wait for the earliest deadline is armed on the timer of its `io_context`, or has
completed with success there. Without a deadline no wait is armed. -/
def Watched (q : Queue Request IoContext) : Prop :=
  match q.expiresAtRequests.entries with
  | [] => ∀ ioContext timer, q.timers.lookup ioContext = some timer → timer.waits = []
  | earliest :: _ => ∃ ioContext, (q.node earliest.value).ioContext = some ioContext ∧
      ((∃ timer, q.timers.lookup ioContext = some timer ∧ earliest.key ∈ timer.waits) ∨
        ⟨ioContext, .success, earliest.key⟩ ∈ q.completed)

theorem watched_of_updateTimer {q after : Queue Request IoContext}
    (updated : q.updateTimer = some after) : after.Watched := by
  rcases updateTimer_cases updated with
    ⟨none, rfl⟩ | ⟨earliest, rest, ioContext, timer, first, hasContext, rfl⟩
  · simp only [Watched]
    rw [none]
    intro ioContext timer found
    simp at found
  · simp only [Watched]
    rw [first]
    refine ⟨ioContext, hasContext, Or.inl ⟨⟨earliest.key, [earliest.key]⟩, ?_, by simp⟩⟩
    rw [AList.lookup_insert]

theorem Watched.step {q after : Queue Request IoContext}
    {event : QueueEvent Request IoContext} (watched : q.Watched)
    (timerStep : TimerStep q event after) : after.Watched := by
  cases timerStep with
  | unchanged same => exact same ▸ watched
  | updated before timers completed isUpdate => exact watched_of_updateTimer isUpdate
  | created ioContext missing isNew =>
      subst isNew
      unfold Watched at watched ⊢
      split at watched
      · next none =>
          rw [none]
          intro other timer found
          by_cases equal : other = ioContext
          · subst equal
            rw [AList.lookup_insert, Option.some.injEq] at found
            exact found ▸ rfl
          · rw [AList.lookup_insert_ne equal] at found
            exact watched other timer found
      · next earliest rest first =>
          rw [first]
          rcases watched with ⟨other, hasContext, ⟨timer, found, armed⟩ | isCompleted⟩
          · have different : other ≠ ioContext := by
              rintro rfl
              rw [missing] at found
              contradiction
            refine ⟨other, hasContext, Or.inl ⟨timer, ?_, armed⟩⟩
            rw [AList.lookup_insert_ne different]
            exact found
          · exact ⟨other, hasContext, Or.inr isCompleted⟩
  | fired ioContext wait timer expiresAt isFire found armed completes =>
      subst completes
      unfold Watched at watched ⊢
      split at watched
      · have waits := watched ioContext timer found
        rw [waits] at armed
        simp at armed
      · next earliest rest first =>
          rw [first]
          rcases watched with ⟨other, hasContext, ⟨watching, isWatching, isArmed⟩ | isCompleted⟩
          · refine ⟨other, hasContext, ?_⟩
            by_cases equal : other = ioContext
            · subst equal
              have equal : timer = watching := Option.some.inj (found.symm.trans isWatching)
              subst equal
              by_cases same : earliest.key = expiresAt
              · exact Or.inr (by simp [same])
              · refine Or.inl ⟨_, AList.lookup_insert _, ?_⟩
                exact mem_eraseIdx_of_ne armed isArmed same
            · refine Or.inl ⟨watching, ?_, isArmed⟩
              rw [AList.lookup_insert_ne equal]
              exact isWatching
          · exact ⟨other, hasContext, Or.inr (List.mem_append_left _ isCompleted)⟩
  | discarded completion wait isCompleted aborted removed =>
      subst removed
      unfold Watched at watched ⊢
      split at watched
      · next none =>
          rw [none]
          exact watched
      · next earliest rest first =>
          rw [first]
          rcases watched with ⟨ioContext, hasContext, armed | isWatching⟩
          · exact ⟨ioContext, hasContext, Or.inl armed⟩
          · refine ⟨ioContext, hasContext, Or.inr (mem_eraseIdx_of_ne isCompleted isWatching ?_)⟩
            rintro rfl
            contradiction

theorem watched_of_reachable {capacity : ℕ} {q : Queue Request IoContext}
    (reached : (system Request IoContext capacity).Reachable q) : q.Watched := by
  apply Transition.System.Reachable.invariant
    (motive := fun q : Queue Request IoContext => q.Watched) ?_ ?_ reached
  · rintro _ rfl ioContext timer found
    simp [constructed] at found
  · intro before event after watched stepped
    exact watched.step (timerStep_of_next stepped)

/--
In every reachable state the earliest deadline of the queue, which is that of the first
element of the multimap, has a wait on the timer of its `io_context` which is armed, or
has completed with success and has yet to call `cancel`. An empty queue has no armed wait.
-/
theorem earliest_deadline_watched {capacity : ℕ} {q : Queue Request IoContext}
    (reached : (system Request IoContext capacity).Reachable q) :
    (q.contents ≠ [] → ∃ earliest rest ioContext,
      q.expiresAtRequests.entries = earliest :: rest ∧
      (q.node earliest.value).ioContext = some ioContext ∧
      (∃ pending ∈ q.contents, pending.context = ioContext ∧ pending.deadline = earliest.key) ∧
      (∀ pending ∈ q.contents, earliest.key ≤ pending.deadline) ∧
      ((∃ timer, q.timers.lookup ioContext = some timer ∧ earliest.key ∈ timer.waits) ∨
        ⟨ioContext, .success, earliest.key⟩ ∈ q.completed)) ∧
    (q.contents = [] → ∀ ioContext timer, q.timers.lookup ioContext = some timer →
      timer.waits = []) := by
  have coherent := (coherent_of_reachable reached).1
  have watched := watched_of_reachable reached
  have entries_empty : q.contents = [] ↔ q.expiresAtRequests.entries = [] := by
    rw [coherent.contents_eq_nil_iff, ← List.length_eq_zero_iff, ← coherent.indexed.length_eq,
      List.length_map, List.length_eq_zero_iff]
  simp only [Watched] at watched
  constructor
  · intro pending
    split at watched
    · next none => exact absurd (entries_empty.mpr none) pending
    · next earliest rest first =>
        rcases watched with ⟨ioContext, hasContext, waiting⟩
        have member : earliest ∈ q.expiresAtRequests.entries := by simp [first]
        refine ⟨earliest, rest, ioContext, first, hasContext, ?_, ?_, waiting⟩
        · rcases coherent.queued_of_entry member with ⟨request, own, contents, queued⟩
          obtain rfl : own = ioContext := by
            rw [contents] at hasContext
            exact Option.some.inj hasContext
          exact ⟨_, List.mem_filterMap.mpr ⟨_, coherent.ordered_of_entry member, queued⟩,
            rfl, rfl⟩
        · intro other isPending
          rcases List.mem_filterMap.mp isPending with ⟨it, ordered, found⟩
          rcases coherent.exists_entry ordered with ⟨entry, isEntry, rfl⟩
          rcases coherent.queued_of_entry isEntry with ⟨request, own, _, queued⟩
          rw [queued, Option.some.injEq] at found
          subst found
          exact Multimap.key_first_le first isEntry
  · intro isEmpty
    rw [entries_empty] at isEmpty
    rw [isEmpty] at watched
    exact watched

/-- The wait for the second of two requests has completed and `cancel` has yet to run. -/
theorem earliest_deadline_watched_after_fire :
    ∃ q, (system ℕ Bool 2).execute (constructed 2)
        [.push false (Ticks.clamp 8) 10 (Ticks.clamp 100),
          .push true (Ticks.clamp 5) 11 (Ticks.clamp 101), .fire true 0] = some q ∧
      ∃ earliest rest ioContext,
        q.expiresAtRequests.entries = earliest :: rest ∧
        (q.node earliest.value).ioContext = some ioContext ∧
        (∃ pending ∈ q.contents, pending.context = ioContext ∧
          pending.deadline = earliest.key) ∧
        (∀ pending ∈ q.contents, earliest.key ≤ pending.deadline) ∧
        ((∃ timer, q.timers.lookup ioContext = some timer ∧ earliest.key ∈ timer.waits) ∨
          ⟨ioContext, .success, earliest.key⟩ ∈ q.completed) := by
  have ran : ((system ℕ Bool 2).execute (constructed 2)
      [.push false (Ticks.clamp 8) 10 (Ticks.clamp 100),
        .push true (Ticks.clamp 5) 11 (Ticks.clamp 101), .fire true 0]).isSome := rfl
  have reached := Transition.System.execute_reachable rfl (Option.some_get ran).symm
  exact ⟨_, (Option.some_get ran).symm,
    (earliest_deadline_watched reached).1 (List.cons_ne_nil _ _)⟩

end Queue

end ResourcePool.Async
