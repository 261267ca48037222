import ResourcePool.Async.Queue.Timers

/-!
# Waits which are armed for no request

`update_timer` drops every timer once the queue is empty. Otherwise it sets the timer of the
earliest request and leaves all others as they are, so an `io_context` whose last request
leaves the queue before those of other ones keeps the wait which was armed for it. No timer
is ever armed for nobody just if no step takes out the last request of an `io_context` whose
timer is armed while other requests stay.
-/

namespace ResourcePool.Async.Queue

open Container

variable {Request IoContext : Type} [DecidableEq IoContext]

/-- A wait is armed on the timer of an `io_context`. -/
def Armed (q : Queue Request IoContext) (ioContext : IoContext) : Prop :=
  ∃ timer ∈ q.timers.lookup ioContext, timer.waits ≠ []

instance (q : Queue Request IoContext) (ioContext : IoContext) : Decidable (q.Armed ioContext) :=
  inferInstanceAs (Decidable (∃ timer ∈ q.timers.lookup ioContext, timer.waits ≠ []))

/-- Each timer with an armed wait belongs to an `io_context` with a queued request. -/
def ArmedForRequests (q : Queue Request IoContext) : Prop :=
  ∀ ioContext, q.Armed ioContext → ∃ pending ∈ q.contents, pending.context = ioContext

/-- The requests in the queue which an event does not take out. -/
def staying (q : Queue Request IoContext) :
    QueueEvent Request IoContext → List (Pending Request IoContext TimePoint)
  | .pop => q.contents.tail
  | .cancel .success expiresAt => BoundedFifo.cancel q.contents expiresAt
  | .deliver completion =>
      match q.completed[completion]? with
      | some ⟨_, .success, expiresAt⟩ => BoundedFifo.cancel q.contents expiresAt
      | _ => q.contents
  | _ => q.contents

/-- An event which leaves requests in the queue takes out the last request of an `io_context`
only if no wait is armed on its timer. -/
def LeavesUnarmed (q : Queue Request IoContext) (event : QueueEvent Request IoContext) : Prop :=
  q.staying event = [] ∨ ∀ pending ∈ q.contents, q.Armed pending.context →
    ∃ other ∈ q.staying event, other.context = pending.context

instance : DecidableRel
    (LeavesUnarmed : Queue Request IoContext → QueueEvent Request IoContext → Prop) :=
  fun q event => inferInstanceAs (Decidable (q.staying event = [] ∨
    ∀ pending ∈ q.contents, q.Armed pending.context →
      ∃ other ∈ q.staying event, other.context = pending.context))

theorem armed_of_lookup {q after : Queue Request IoContext} {ioContext : IoContext}
    (same : after.timers.lookup ioContext = q.timers.lookup ioContext) :
    after.Armed ioContext ↔ q.Armed ioContext := by
  rw [Armed, Armed, same]

/-- Replacing a timer arms no other one. -/
theorem armed_of_insert {q after : Queue Request IoContext} {own : IoContext} {timer : Timer}
    (replaced : after.timers = q.timers.insert own timer)
    (wasArmed : timer.waits ≠ [] → q.Armed own) {ioContext : IoContext}
    (armed : after.Armed ioContext) : q.Armed ioContext := by
  rcases armed with ⟨other, found, isArmed⟩
  rw [replaced] at found
  by_cases equal : ioContext = own
  · subst equal
    rw [AList.lookup_insert, Option.mem_some_iff] at found
    exact wasArmed (found ▸ isArmed)
  · rw [AList.lookup_insert_ne equal] at found
    exact ⟨other, found, isArmed⟩

/-- `update_timer` arms the timer of the earliest request, and disarms no other one unless the
queue is empty. -/
theorem armed_updateTimer {q after : Queue Request IoContext} (coherent : q.Coherent)
    (updated : q.updateTimer = some after) :
    (q.contents = [] ∧ ∀ ioContext, ¬after.Armed ioContext) ∨
      ∃ pending ∈ q.contents, ∀ ioContext,
        after.Armed ioContext ↔ ioContext = pending.context ∨ q.Armed ioContext := by
  rcases updateTimer_cases updated with
    ⟨none, rfl⟩ | ⟨earliest, rest, own, timer, first, hasContext, rfl⟩
  · left
    constructor
    · apply List.length_eq_zero_iff.mp
      rw [← coherent.size_eq, Multimap.size, none, List.length_nil]
    · rintro ioContext ⟨timer, found, _⟩
      simp at found
  · right
    have member : earliest ∈ q.expiresAtRequests.entries := by simp [first]
    rcases coherent.queued_of_entry member with ⟨request, context, contents, queued⟩
    have same : context = own := by
      rw [contents] at hasContext
      exact Option.some.inj hasContext
    subst same
    refine ⟨_, List.mem_filterMap.mpr ⟨_, coherent.ordered_of_entry member, queued⟩, ?_⟩
    intro ioContext
    by_cases equal : ioContext = context
    · subst equal
      simp [Armed]
    · simp only [equal, false_or]
      apply armed_of_lookup
      exact AList.lookup_insert_ne equal

/-- What an event does to the queued requests and to the armed timers. -/
inductive RequestStep (q : Queue Request IoContext) (event : QueueEvent Request IoContext)
    (after : Queue Request IoContext) : Prop where
  | kept (stays : q.staying event = q.contents) (queued : q.contents ⊆ after.contents)
      (armed : ∀ ioContext, after.Armed ioContext →
        q.Armed ioContext ∨ ∃ pending ∈ after.contents, pending.context = ioContext)
  | emptied (stays : q.staying event = []) (disarmed : ∀ ioContext, ¬after.Armed ioContext)
  | taken (stays : after.contents = q.staying event)
      (pending : Pending Request IoContext TimePoint) (queued : pending ∈ after.contents)
      (armed : ∀ ioContext,
        after.Armed ioContext ↔ ioContext = pending.context ∨ q.Armed ioContext)

theorem RequestStep.unchanged {q after : Queue Request IoContext}
    {event : QueueEvent Request IoContext} (stays : q.staying event = q.contents)
    (same : after = q) : RequestStep q event after := by
  subst same
  exact .kept stays (List.Subset.refl _) fun _ armed => Or.inl armed

theorem contents_updateTimer {q after : Queue Request IoContext}
    (updated : q.updateTimer = some after) : after.contents = q.contents := by
  rcases updateTimer_cases updated with ⟨_, rfl⟩ | ⟨_, _, _, _, _, _, rfl⟩ <;> rfl

theorem RequestStep.of_updateTimer {q after : Queue Request IoContext}
    {event : QueueEvent Request IoContext} (before : Queue Request IoContext)
    (timers : before.timers = q.timers) (coherent : before.Coherent)
    (stays : before.contents = q.staying event) (updated : before.updateTimer = some after) :
    RequestStep q event after := by
  have same := contents_updateTimer updated
  rcases armed_updateTimer coherent updated with ⟨isEmpty, disarmed⟩ | ⟨pending, queued, armed⟩
  · exact .emptied (stays.symm.trans isEmpty) disarmed
  · refine .taken (same.trans stays) pending (same ▸ queued) ?_
    intro ioContext
    have alike : before.Armed ioContext ↔ q.Armed ioContext := armed_of_lookup (by rw [timers])
    rw [armed ioContext, alike]

theorem RequestStep.of_cancel {q after : Queue Request IoContext}
    {event : QueueEvent Request IoContext} (before : Queue Request IoContext)
    (coherent : before.Coherent) (timers : before.timers = q.timers) {expiresAt : TimePoint}
    (stays : BoundedFifo.cancel before.contents expiresAt = q.staying event)
    (cancelled : (before.cancel .success expiresAt).map Prod.snd = some after) :
    RequestStep q event after := by
  rcases coherent.expire expiresAt with ⟨posted, indexes, expired, left, _, remaining⟩
  simp only [cancel, expired, Option.bind_eq_bind, Option.bind_some, Option.pure_def,
    Option.map_eq_some_iff, Option.bind_eq_some_iff, Option.some.injEq] at cancelled
  rcases cancelled with ⟨_, ⟨updated, isUpdate, rfl⟩, rfl⟩
  exact .of_updateTimer { before with toIndexes := indexes } timers left
    (remaining.trans stays) isUpdate

/-- A push queues one more request, and arms the timer of the earliest one. -/
theorem RequestStep.of_enqueue {q after : Queue Request IoContext}
    {event : QueueEvent Request IoContext} (coherent : q.Coherent)
    (stays : q.staying event = q.contents) (ioContext : IoContext) (request : Request)
    (expiresAt : TimePoint)
    (updated : { q with toIndexes := q.enqueue ioContext request expiresAt }.updateTimer =
      some after) : RequestStep q event after := by
  rcases coherent.enqueue ioContext request expiresAt with ⟨entered, appended⟩
  have contents := (contents_updateTimer updated).trans appended
  rcases armed_updateTimer entered updated with ⟨isEmpty, _⟩ | ⟨pending, queued, armed⟩
  · rw [appended] at isEmpty
    simp at isEmpty
  · refine .kept stays ?_ ?_
    · rw [contents]
      exact List.subset_append_left _ _
    · intro other isArmed
      rcases (armed other).mp isArmed with rfl | older
      · exact Or.inr ⟨pending, (contents_updateTimer updated).symm ▸ queued, rfl⟩
      · exact Or.inl older

theorem requestStep_of_next {q after : Queue Request IoContext}
    {event : QueueEvent Request IoContext} (coherent : q.Coherent)
    (stepped : q.next event = some after) : RequestStep q event after := by
  cases event with
  | push ioContext waitDuration request now =>
      simp only [next, push] at stepped
      split at stepped
      · simp only [Option.bind_eq_bind, Option.pure_def, Option.map_eq_some_iff,
          Option.bind_eq_some_iff, Option.some.injEq] at stepped
        rcases stepped with ⟨_, ⟨updated, isUpdate, rfl⟩, rfl⟩
        exact .of_enqueue coherent rfl ioContext request (TimeTraits.add now waitDuration) isUpdate
      · simp only [Option.pure_def, Option.map_some, Option.some.injEq] at stepped
        exact .unchanged rfl stepped.symm
  | pop =>
      simp only [next, pop] at stepped
      split at stepped
      · next nothing =>
          simp only [Option.pure_def, Option.map_some, Option.some.injEq] at stepped
          have isEmpty := coherent.contents_eq_nil_iff.mpr nothing
          refine .unchanged ?_ stepped.symm
          rw [staying, isEmpty, List.tail_nil]
      · next orderedIt others front =>
          rcases coherent.dequeue front with ⟨oldest, left, dequeued, stillCoherent, split⟩
          simp only [dequeued, Option.bind_eq_bind, Option.bind_some, Option.pure_def,
            Option.map_eq_some_iff, Option.bind_eq_some_iff, Option.some.injEq] at stepped
          rcases stepped with ⟨_, ⟨updated, isUpdate, rfl⟩, rfl⟩
          refine .of_updateTimer { q with toIndexes := left } rfl stillCoherent ?_ isUpdate
          rw [staying, split, List.tail_cons]
  | cancel ec expiresAt =>
      cases ec with
      | operationAborted =>
          rw [next, cancel_aborted, Option.map_some, Option.some.injEq] at stepped
          exact .unchanged rfl stepped.symm
      | success => exact .of_cancel q coherent rfl rfl stepped
  | timer ioContext =>
      simp only [next, timer, getTimer, Option.some.injEq] at stepped
      split at stepped
      · exact .unchanged rfl stepped.symm
      · subst stepped
        refine .kept rfl (List.Subset.refl _) fun other armed => Or.inl ?_
        exact armed_of_insert rfl (fun isArmed => absurd rfl isArmed) armed
  | fire ioContext wait =>
      simp only [next, fire, Option.bind_eq_bind, Option.bind_eq_some_iff, Option.pure_def,
        Option.some.injEq] at stepped
      rcases stepped with ⟨timer, found, expiresAt, armed, rfl⟩
      have wasArmed : q.Armed ioContext := by
        refine ⟨timer, found, ?_⟩
        intro none
        simp [none] at armed
      exact .kept rfl (List.Subset.refl _) fun other isArmed =>
        Or.inl (armed_of_insert rfl (fun _ => wasArmed) isArmed)
  | deliver completion =>
      simp only [next, deliver, Option.bind_eq_bind, Option.map_bind,
        Option.bind_eq_some_iff] at stepped
      rcases stepped with ⟨⟨ioContext, ec, expiresAt⟩, isCompleted, cancelled⟩
      cases ec with
      | operationAborted =>
          rw [Function.comp_apply, cancel_aborted, Option.map_some, Option.some.injEq] at cancelled
          subst cancelled
          refine .kept ?_ (List.Subset.refl _) fun _ armed => Or.inl armed
          simp only [staying, isCompleted]
      | success =>
          refine .of_cancel { q with completed := q.completed.eraseIdx completion }
            coherent rfl ?_ cancelled
          simp only [staying, isCompleted]

theorem ArmedForRequests.step {q after : Queue Request IoContext}
    {event : QueueEvent Request IoContext} (served : q.ArmedForRequests)
    (leaves : q.LeavesUnarmed event) (stepped : RequestStep q event after) :
    after.ArmedForRequests := by
  intro ioContext isArmed
  cases stepped with
  | kept stays queued armed =>
      rcases armed ioContext isArmed with older | newest
      · rcases served ioContext older with ⟨pending, isQueued, same⟩
        exact ⟨pending, queued isQueued, same⟩
      · exact newest
  | emptied stays disarmed => exact absurd isArmed (disarmed ioContext)
  | taken stays pending queued armed =>
      rcases (armed ioContext).mp isArmed with rfl | older
      · exact ⟨pending, queued, rfl⟩
      · rcases served ioContext older with ⟨left, isQueued, rfl⟩
        rcases leaves with none | each
        · rw [stays, none] at queued
          simp at queued
        · rw [stays]
          exact each left isQueued older

theorem leavesUnarmed_of_step {q after : Queue Request IoContext}
    {event : QueueEvent Request IoContext} (served : after.ArmedForRequests)
    (stepped : RequestStep q event after) : q.LeavesUnarmed event := by
  cases stepped with
  | kept stays queued armed =>
      right
      intro pending isQueued _
      exact ⟨pending, stays.symm ▸ isQueued, rfl⟩
  | emptied stays disarmed => exact Or.inl stays
  | taken stays pending queued armed =>
      right
      intro left _ isArmed
      rw [← stays]
      exact served left.context ((armed left.context).mpr (Or.inr isArmed))

/--
In every state of a run each timer with an armed wait belongs to an `io_context` with a
queued request, just if no step which leaves requests in the queue takes out the last one
of an `io_context` whose timer is armed.
-/
theorem armedForRequests_iff_leavesUnarmed {capacity : ℕ} {q final : Queue Request IoContext}
    {events : List (QueueEvent Request IoContext)}
    (isInitial : (system Request IoContext capacity).Initial q)
    (ran : (system Request IoContext capacity).execute q events = some final) :
    (system Request IoContext capacity).Throughout ArmedForRequests q events ↔
      (system Request IoContext capacity).EachStep LeavesUnarmed q events := by
  have reached : (system Request IoContext capacity).Reachable q :=
    Transition.System.Reachable.start isInitial
  apply Transition.System.throughout_iff_eachStep
    (fun _ _ _ known stepped => Transition.System.Reachable.next known stepped) ?_ ?_ reached
    ?_ ran
  · intro before event after known served leaves stepped
    exact served.step leaves (requestStep_of_next (coherent_of_reachable known).1 stepped)
  · intro before event after known _ stepped served
    exact leavesUnarmed_of_step served
      (requestStep_of_next (coherent_of_reachable known).1 stepped)
  · rcases isInitial with rfl
    rintro ioContext ⟨timer, found, _⟩
    simp [constructed] at found

/-- The wait for the request which expires first has completed before it leaves. -/
def expiringRun : List (QueueEvent ℕ Bool) :=
  [.push false (Ticks.clamp 8) 10 (Ticks.clamp 100),
    .push true (Ticks.clamp 5) 11 (Ticks.clamp 101), .fire true 0, .deliver 0]

theorem armedForRequests_expiring :
    (system ℕ Bool 2).Throughout ArmedForRequests (constructed 2) expiringRun := by
  have ran : ((system ℕ Bool 2).execute (constructed 2) expiringRun).isSome := rfl
  exact (armedForRequests_iff_leavesUnarmed rfl (Option.some_get ran).symm).mpr (by decide)

/-- The first of two requests is served while its wait is armed. -/
def servingRun : List (QueueEvent ℕ Bool) :=
  [.push false (Ticks.clamp 8) 10 (Ticks.clamp 100),
    .push true (Ticks.clamp 8) 11 (Ticks.clamp 101), .pop]

/-- The `io_context` of the served request keeps its wait, with no request in the queue. -/
theorem armed_for_no_request :
    ∃ q, (system ℕ Bool 2).execute (constructed 2) servingRun = some q ∧
      (system ℕ Bool 2).Reachable q ∧
      q.contents = [⟨11, true, Ticks.clamp 109⟩] ∧
      q.timers.lookup false = some ⟨Ticks.clamp 108, [Ticks.clamp 108]⟩ ∧
      ¬q.ArmedForRequests := by
  have ran : ((system ℕ Bool 2).execute (constructed 2) servingRun).isSome := rfl
  have reached := Transition.System.execute_reachable rfl (Option.some_get ran).symm
  refine ⟨_, (Option.some_get ran).symm, reached, rfl, rfl, ?_⟩
  intro served
  rcases served false ⟨_, rfl, List.cons_ne_nil _ _⟩ with ⟨pending, queued, same⟩
  rcases List.mem_singleton.mp queued with rfl
  contradiction

end ResourcePool.Async.Queue
