import ResourcePool.Async.Ownership
import ResourcePool.Async.QueueActions

/-!
# Every request can be completed

Once clients ask for nothing more, what is under way can come to its end without them:
calls of `get` enter their second section, those of `recycle` and `waste` theirs, waits of
timers complete, and completions run.
As the earliest deadline of the queue is always watched, there is a wait whose completion
expires a request as long as one is queued. No cell has to come back for this, and it makes
no difference whether the pool is disabled.
-/

namespace ResourcePool.Async

open Transition Container

/-- The steps of a pool which no client begins: the sections to which calls in progress come,
and what the `io_context`s do. -/
def Event.isOwn {V IoContext : Type} : Event V IoContext → Bool
  | .push .. | .run .. | .finish .. | .fire .. | .deliver .. => true
  | .get .. | .reset .. | .operate _ | .invalidate | .disable => false

/-- The clock, if a step reads it, reads `now`. -/
def Event.ReadsAt {V IoContext : Type} (now : TimePoint) : Event V IoContext → Prop
  | .get _ _ _ reading | .push _ reading | .reset _ _ reading | .finish _ reading => reading = now
  | .run .. | .operate _ | .invalidate | .disable | .fire .. | .deliver .. => True

namespace World

variable {V IoContext : Type} [DecidableEq IoContext]

/-- The steps until all requests are completed: a push may queue a request, which then may
expire or be served, and a completion is left to run. -/
def remaining (w : World V IoContext) : ℕ :=
  3 * w.unlocked.length + 2 * w.impl.callbacks.contents.length + w.submitted.length +
    w.handles.returning.length

/-- Nothing is under way: no call of `get` is between its sections, nothing is queued or
submitted, and no handle is in a call of `recycle` or `waste`. -/
def Settled (w : World V IoContext) : Prop :=
  w.unlocked = [] ∧ w.impl.callbacks.contents = [] ∧ w.submitted = [] ∧ w.handles.returning = []

abbrev LeadsByItself (w : World V IoContext) (now : TimePoint) (after : World V IoContext) :
    Prop :=
  (system V IoContext).LeadsTo (fun _ event => event.isOwn = true ∧ event.ReadsAt now) w after

theorem step_of_act {w after : World V IoContext} {event : Event V IoContext}
    (isDefined : w.undefined = false) (acted : w.act event = some after) :
    (system V IoContext).step w event = some after := by
  change (if w.undefined then none else w.act event) = some after
  rw [isDefined]
  exact acted

theorem leadsTo_of_act {condition : World V IoContext → Event V IoContext → Prop}
    {w after : World V IoContext} {event : Event V IoContext} (acted : w.act event = some after)
    (isDefined : w.undefined = false) (meets : condition w event) :
    (system V IoContext).LeadsTo condition w after :=
  System.LeadsTo.step meets (step_of_act isDefined acted)

omit [DecidableEq IoContext] in
/-- No handler was moved from. -/
theorem Accounted.handler_of_submitted {w : World V IoContext} (accounted : w.Accounted)
    {submission : Submission Request IoContext} (isSubmitted : submission ∈ w.submitted) :
    ∃ request, submission.task.handler = some request := by
  have isKey : submission.key ∈ w.keys := by
    apply List.mem_append_right _ (List.mem_map_of_mem ?_)
    exact accounted.log.mem_iff.mpr (List.mem_append_left _ isSubmitted)
  rcases accounted.mem_keys isKey with ⟨id, same, _⟩
  rcases Option.map_eq_some_iff.mp same with ⟨request, isRequest, _⟩
  exact ⟨request, isRequest⟩

/-- The first submitted completion can run. The handle which it makes is in no call. -/
theorem Accounted.leads_run {w : World V IoContext} (accounted : w.Accounted)
    (isDefined : w.undefined = false) (now : TimePoint) (submits : w.submitted ≠ []) :
    ∃ later, w.LeadsByItself now later ∧ later.remaining < w.remaining := by
  rcases w.handles.exists_new with ⟨handle, isNew⟩
  rcases List.exists_cons_of_ne_nil submits with ⟨submission, others, isFirst⟩
  rcases accounted.handler_of_submitted (isFirst ▸ List.mem_cons_self) with
    ⟨request, isRequest⟩
  have acted : ∃ after, w.act (.run 0 handle) = some after ∧
      after.unlocked = w.unlocked ∧ after.impl = w.impl ∧ after.submitted = others ∧
      after.handles = w.handles.insert handle
        ⟨onGetHandler request submission.task.error submission.task.listIterator, none⟩ := by
    simp only [act, isNew, if_false, isFirst, List.getElem?_cons_zero, isRequest]
    exact ⟨_, rfl, rfl, rfl, rfl, rfl⟩
  rcases acted with ⟨after, acted, unlocked, impl, submitted, handles⟩
  refine ⟨after, leadsTo_of_act acted isDefined ⟨rfl, trivial⟩, ?_⟩
  have returning : after.handles.returning = w.handles.returning := by
    rw [handles, Handles.returning, held_insert, held_erase_of_notMem isNew]
    rfl
  simp only [remaining, unlocked, impl, submitted, returning, isFirst, List.length_cons]
  omega

/-- The first unlocked call can enter its second section. -/
theorem leads_push {w : World V IoContext} (isDefined : w.undefined = false) (now : TimePoint)
    (waits : w.unlocked ≠ []) :
    ∃ later, w.LeadsByItself now later ∧ later.remaining < w.remaining := by
  rcases List.exists_cons_of_ne_nil waits with ⟨get, others, isFirst⟩
  have isGet : w.unlocked[0]? = some get := by simp [isFirst]
  have acted : ∃ after, w.act (.push 0 now) = some after := by
    simp only [act, isGet]
    exact ⟨_, rfl⟩
  rcases acted with ⟨after, acted⟩
  refine ⟨after, leadsTo_of_act acted isDefined ⟨rfl, rfl⟩, ?_⟩
  cases stepped_of_act acted with
  | queued _ _ appended _ =>
      simp only [remaining, appended, isFirst, List.eraseIdx_cons_zero, List.length_append,
        List.length_cons, List.length_nil]
      omega
  | overflowed =>
      simp only [remaining, World.submit, isFirst, List.eraseIdx_cons_zero, List.length_append,
        List.length_cons, List.length_nil]
      omega

/-- A handle which is in a call comes to its section, where it gives its cell back or hands it
to the oldest request. -/
theorem Owned.exists_finish {w : World V IoContext} (owned : w.Owned) (now : TimePoint)
    {handle : HandleId} {ready : Handle Unit} {call : PoolCall Unit}
    (found : w.handles.lookup handle = some ⟨ready, some call⟩) :
    ∃ after, w.act (.finish handle now) = some after ∧ after.remaining < w.remaining ∧
      after.handles = w.handles.insert handle ⟨ready.returned, none⟩ ∧
      (w.impl.callbacks.contents = [] → after.unlocked = w.unlocked ∧
        after.impl.callbacks = w.impl.callbacks ∧ after.submitted = w.submitted) := by
  rcases (owned.sound _ _ found).of_call with ⟨strategy, cell, rfl, isCell⟩
  have used := owned.used_of_lookup found isCell
  have fewer := (Handles.returning_perm_returned found rfl).length_eq
  rw [List.length_cons] at fewer
  rcases w.impl.giveBack_cases strategy used now with
    ⟨isEmpty, taken⟩ | ⟨oldest, rest, callbacks, front, handed, _, left⟩
  · have acted : ∃ after, w.act (.finish handle now) = some after ∧
        after.handles = w.handles.insert handle ⟨ready.returned, none⟩ ∧
        after.unlocked = w.unlocked ∧ after.impl.callbacks = w.impl.callbacks ∧
        after.submitted = w.submitted := by
      simp only [act, found, callSection, taken]
      exact ⟨_, rfl, rfl, rfl, rfl, List.append_nil _⟩
    rcases acted with ⟨after, acted, handles, unlocked, callbacks, submitted⟩
    refine ⟨after, acted, ?_, handles, fun _ => ⟨unlocked, callbacks, submitted⟩⟩
    simp only [remaining, handles, unlocked, callbacks, submitted]
    omega
  · have acted : ∃ after, w.act (.finish handle now) = some after ∧
        after.handles = w.handles.insert handle ⟨ready.returned, none⟩ ∧
        after.unlocked = w.unlocked ∧ after.impl.callbacks.contents = rest ∧
        after.submitted.length = w.submitted.length + 1 := by
      simp only [act, found, callSection, handed]
      exact ⟨_, rfl, rfl, rfl, left, List.length_append⟩
    rcases acted with ⟨after, acted, handles, unlocked, contents, submitted⟩
    refine ⟨after, acted, ?_, handles, fun isEmpty => ?_⟩
    · simp only [remaining, handles, unlocked, contents, submitted, front, List.length_cons]
      omega
    · rw [front] at isEmpty
      contradiction

theorem Owned.leads_finish {w : World V IoContext} (owned : w.Owned) (now : TimePoint)
    (returns : w.handles.returning ≠ []) :
    ∃ later, w.LeadsByItself now later ∧ later.remaining < w.remaining := by
  rcases List.exists_mem_of_ne_nil _ returns with ⟨_, member⟩
  rcases exists_of_mem_held member with ⟨handle, ⟨ready, call⟩, found, gives⟩
  cases call with
  | none => contradiction
  | some call =>
      rcases owned.exists_finish now found with ⟨after, acted, fewer, _⟩
      exact ⟨after, leadsTo_of_act acted owned.isDefined ⟨rfl, rfl⟩, fewer⟩

/-- The completion of a wait expires the requests up to its deadline. -/
theorem leads_deliver {w : World V IoContext} (isDefined : w.undefined = false) (now : TimePoint)
    {ioContext : IoContext} {bound : TimePoint}
    (completed : ⟨ioContext, .success, bound⟩ ∈ w.impl.callbacks.completed)
    {pending : Container.Pending Request IoContext TimePoint}
    (isPending : pending ∈ w.impl.callbacks.contents) (expires : pending.deadline ≤ bound) :
    ∃ later, w.LeadsByItself now later ∧ later.remaining < w.remaining := by
  rcases List.getElem?_of_mem completed with ⟨completion, isCompleted⟩
  have acted : ∃ after, w.act (.deliver completion) = some after ∧
      after.impl.callbacks.contents = BoundedFifo.cancel w.impl.callbacks.contents bound := by
    simp only [act, PoolImpl.deliver, CoherentQueue.deliver, isCompleted, Option.map_some,
      Option.bind_eq_bind, Option.bind_some, Option.pure_def]
    exact ⟨_, rfl, CoherentQueue.cancel_contents _ bound⟩
  rcases acted with ⟨after, acted, left⟩
  refine ⟨after, leadsTo_of_act acted isDefined ⟨rfl, trivial⟩, ?_⟩
  have fewer : after.impl.callbacks.contents.length < w.impl.callbacks.contents.length := by
    rw [left, BoundedFifo.cancel]
    apply List.length_filter_lt_length_iff_exists.mpr
    exact ⟨pending, isPending, by simpa using expires⟩
  cases stepped_of_act acted with
  | @delivered _ callbacks leaving submissions expired split sublist capacity =>
      have leaves := expired.length_eq
      have splits := split.length_eq
      rw [List.length_map] at leaves
      rw [List.length_append] at splits
      simp only [remaining, World.submit, List.length_append] at fewer ⊢
      omega

/-- As the earliest deadline is watched, the first request to expire does so once the wait
has completed. -/
theorem leads_expire {w : World V IoContext} (reached : (system V IoContext).Reachable w)
    (isDefined : w.undefined = false) (now : TimePoint)
    (waits : w.impl.callbacks.contents ≠ []) :
    ∃ later, w.LeadsByItself now later ∧ later.remaining < w.remaining := by
  have coherent := w.impl.callbacks.coherent
  have watched := Queue.watched_of_reachable (queue_reachable reached)
  cases first : w.impl.callbacks.expiresAtRequests.entries with
  | nil =>
      have size := coherent.size_eq
      rw [Multimap.size, first, List.length_nil] at size
      exact absurd (List.length_eq_zero_iff.mp size.symm) waits
  | cons earliest rest =>
      rw [Queue.Watched, first] at watched
      have isEntry : earliest ∈ w.impl.callbacks.expiresAtRequests.entries := by simp [first]
      rcases coherent.queued_of_entry isEntry with ⟨request, own, _, queued⟩
      have isPending : ⟨request, own, earliest.key⟩ ∈ w.impl.callbacks.contents :=
        List.mem_filterMap.mpr ⟨_, coherent.ordered_of_entry isEntry, queued⟩
      rcases watched with ⟨ioContext, _, ⟨timer, found, armed⟩ | isCompleted⟩
      · rcases List.getElem?_of_mem armed with ⟨wait, isWait⟩
        have isFire : ∃ after, w.impl.callbacks.toQueue.fire ioContext wait = some after ∧
            ⟨ioContext, .success, earliest.key⟩ ∈ after.completed := by
          simp only [Queue.fire, found, isWait, Option.bind_eq_bind, Option.bind_some]
          exact ⟨_, rfl, List.mem_append_right _ (List.mem_singleton_self _)⟩
        rcases isFire with ⟨_, fired, completed⟩
        rcases CoherentQueue.exists_fire fired with ⟨callbacks, isFired, rfl⟩
        have acted : w.act (.fire ioContext wait) =
            some { w with impl := { w.impl with callbacks := callbacks } } := by
          simp only [act, PoolImpl.fire, isFired, Option.bind_eq_bind, Option.bind_some,
            Option.pure_def, Option.map_some]
        have same : callbacks.contents = w.impl.callbacks.contents :=
          (CoherentQueue.fire_contents isFired).1
        rcases leads_deliver (w := { w with impl := { w.impl with callbacks := callbacks } })
          isDefined now completed (same ▸ isPending) (le_refl _) with ⟨later, leads, fewer⟩
        refine ⟨later, (leadsTo_of_act acted isDefined ⟨rfl, trivial⟩).trans leads, ?_⟩
        simpa only [remaining, same] using fewer
      · exact leads_deliver isDefined now isCompleted isPending (le_refl _)

/-- As long as something is under way, the pool can by itself leave less to do. -/
theorem leads_closer {w : World V IoContext} (reached : (system V IoContext).Reachable w)
    (now : TimePoint) (unsettled : ¬w.Settled) :
    ∃ later, w.LeadsByItself now later ∧ later.remaining < w.remaining := by
  have owned := owned_of_reachable reached
  by_cases submits : w.submitted = []
  · by_cases waits : w.unlocked = []
    · by_cases returns : w.handles.returning = []
      · have queues : w.impl.callbacks.contents ≠ [] :=
          fun isEmpty => unsettled ⟨waits, isEmpty, submits, returns⟩
        exact leads_expire reached owned.isDefined now queues
      · exact owned.leads_finish now returns
    · exact leads_push owned.isDefined now waits
  · exact (accounted_of_reachable reached).leads_run owned.isDefined now submits

/-- No step of the pool's own issues a request, or disables the pool. -/
theorem LeadsByItself.keeps {w final : World V IoContext} {now : TimePoint}
    (leads : w.LeadsByItself now final) :
    final.issued = w.issued ∧ final.impl.disabled = w.impl.disabled := by
  induction leads with
  | refl => exact ⟨rfl, rfl⟩
  | @tail before after _ last ih =>
      rcases last with ⟨event, ⟨isOwn, _⟩, stepped⟩
      rcases ih with ⟨issued, disabled⟩
      have kept : after.issued = before.issued ∧
          after.impl.disabled = before.impl.disabled := by
        cases (stepped_of_step stepped).2 <;> first | contradiction | exact ⟨rfl, rfl⟩
      exact ⟨kept.1.trans issued, kept.2.trans disabled⟩

omit [DecidableEq IoContext] in
/-- When nothing is under way, all requests have completed. -/
theorem Accounted.completed_of_settled {w : World V IoContext} (accounted : w.Accounted)
    (settled : w.Settled) {id : ℕ} (isIssued : id < w.issued.length) :
    w.completed.countP (fun submission => submission.IsFor id) = 1 := by
  rcases settled with ⟨unlocked, contents, submitted, _⟩
  have logged := accounted.log.countP_eq fun submission => submission.IsFor id
  have once := (accounted.keys.countP_eq fun key => key.1 = some id).trans
    (countP_issuedKeys isIssued)
  rw [World.keys, unlocked, contents, List.map_nil, List.map_nil, List.nil_append,
    List.nil_append, List.countP_map] at once
  rw [submitted, List.nil_append] at logged
  exact logged.symm.trans once

/--
From every reachable state, without any further call of a client, the pool can come to a
state in which no call, no queued request and no submitted completion is left, whatever the
clock reads meanwhile. All requests issued have then completed, each once.
-/
theorem all_requests_can_complete {w : World V IoContext}
    (reached : (system V IoContext).Reachable w) (now : TimePoint) :
    ∃ final, w.LeadsByItself now final ∧ final.Settled ∧ final.issued = w.issued ∧
      final.impl.disabled = w.impl.disabled ∧
      ∀ id < w.issued.length,
        final.completed.countP (fun submission => submission.IsFor id) = 1 := by
  have closer : ∀ before : World V IoContext, (system V IoContext).Reachable before →
      ¬before.Settled → ∃ later, before.LeadsByItself now later ∧
        (later.Settled ∨ (system V IoContext).Reachable later ∧
          later.remaining < before.remaining) := by
    intro before isReached unsettled
    rcases leads_closer isReached now unsettled with ⟨later, leads, fewer⟩
    have isLater := System.ReachableVia.leadsTo isReached (fun _ _ _ => trivial) leads
    exact ⟨later, leads, Or.inr ⟨isLater, fewer⟩⟩
  rcases System.leadsTo_of_variant remaining closer reached with ⟨final, leads, settled⟩
  have isFinal := System.ReachableVia.leadsTo reached (fun _ _ _ => trivial) leads
  rcases LeadsByItself.keeps leads with ⟨issued, disabled⟩
  refine ⟨final, leads, settled, issued, disabled, ?_⟩
  intro id isIssued
  exact (accounted_of_reachable isFinal).completed_of_settled settled (issued ▸ isIssued)

/-- One client keeps the only cell, and the request of another one has just left the first
section of its `get`. -/
theorem all_requests_can_complete_unlocked :
    ∃ w, (system ℕ Bool).execute oneCell (handOverRun.take 2) = some w ∧
      w.unlocked.length = 1 ∧ w.impl.storage.NoFreeCell ∧
      ∃ final, w.LeadsByItself (Ticks.clamp 12) final ∧
        final.completed.countP (fun submission => submission.IsFor 1) = 1 := by
  have ran : ((system ℕ Bool).execute oneCell (handOverRun.take 2)).isSome := rfl
  have reached := System.execute_reachable oneCell_initial (Option.some_get ran).symm
  rcases all_requests_can_complete reached (Ticks.clamp 12) with ⟨final, leads, _, _, _, completed⟩
  exact ⟨_, (Option.some_get ran).symm, rfl, ⟨rfl, rfl⟩, final, leads, completed 1 Nat.one_lt_two⟩

end World

end ResourcePool.Async
