import ResourcePool.Async.Locking.Guards
import ResourcePool.Async.QueueActions
import ResourcePool.Concurrency.Intentions
import ResourcePool.Storage.Frame

/-!
# What single accesses of threads do

Between two steps of a thread any other thread may come. Still each access performs an
action of the storage or of the queue, or takes a completed wait, to call `cancel` with its
expiry. So threads bring the storage only into states which it can reach by its actions,
and no interleaving makes the queue lose sight of its earliest deadline.
-/

namespace ResourcePool.Async

open Concurrency Transition

namespace Routine

variable {V Request IoContext : Type} [DecidableEq IoContext]

/-- What an access does to the storage. -/
def StorageEffect (impl after : PoolImpl V Request IoContext) : Prop :=
  after.storage = impl.storage ∨
    ∃ action, impl.storage.perform action = some after.storage

/-- What an access does to the queue. -/
inductive QueueEffect (q after : Queue Request IoContext) (next : Body V Request IoContext) :
    Prop where
  | unchanged (same : after = q)
  | operated (event : QueueEvent Request IoContext) (stepped : q.next event = some after)
  /-- The handler of a completed wait begins. -/
  | taken (completion : ℕ) (wait : WaitCompletion IoContext)
      (isCompleted : q.completed[completion]? = some wait)
      (removed : after = { q with completed := q.completed.eraseIdx completion })
      (cancels : next = cancel wait.ec wait.expiresAt)

variable (V Request IoContext) in
/-- Accesses have these effects, with whichever mutexes. -/
def effects : Rule (PoolImpl V Request IoContext) PoolMutex (Submission Request IoContext)
    (Routine Request IoContext) where
  mayLock _ _ := True
  mayAccess _ effect next := ∀ impl after, effect impl = some after →
    StorageEffect impl after ∧
      QueueEffect impl.callbacks.toQueue after.callbacks.toQueue (next impl)

abbrev HasEffects (held : List PoolMutex) (program : Body V Request IoContext) : Prop :=
  program.Obeys (effects V Request IoContext) held

section

variable {held : List PoolMutex}
  {effect : PoolImpl V Request IoContext → Option (PoolImpl V Request IoContext)}
  {next : PoolImpl V Request IoContext → Body V Request IoContext}

/-- An access to the storage only. -/
theorem hasEffects_storage
    (stores : ∀ impl after, effect impl = some after →
      StorageEffect impl after ∧ after.callbacks = impl.callbacks)
    (continues : ∀ impl, HasEffects held (next impl)) :
    HasEffects held (.access effect next) := by
  refine ⟨?_, continues⟩
  intro impl after accessed
  rcases stores impl after accessed with ⟨stored, same⟩
  exact ⟨stored, .unchanged (by rw [same])⟩

/-- An operation of the queue. -/
theorem hasEffects_queue (event : PoolImpl V Request IoContext → QueueEvent Request IoContext)
    (operates : ∀ impl after, effect impl = some after → after.storage = impl.storage ∧
      impl.callbacks.toQueue.next (event impl) = some after.callbacks.toQueue)
    (continues : ∀ impl, HasEffects held (next impl)) :
    HasEffects held (.access effect next) := by
  refine ⟨?_, continues⟩
  intro impl after accessed
  rcases operates impl after accessed with ⟨same, stepped⟩
  exact ⟨Or.inl same, .operated (event impl) stepped⟩

end

theorem hasEffects_pop {held : List PoolMutex}
    {next : Option (QueuedValue Request IoContext) → Body V Request IoContext}
    (continues : ∀ queued, HasEffects held (next queued)) : HasEffects held (pop next) := by
  refine ⟨trivial, hasEffects_queue (fun _ => .pop) ?_ fun _ => continues _⟩
  rintro impl _ ⟨⟩
  exact ⟨rfl, impl.callbacks.pop_step⟩

theorem hasEffects_push (unlocked : UnlockedGet Request IoContext) (now : TimePoint) :
    HasEffects [] (push unlocked now : Body V Request IoContext) := by
  refine ⟨trivial, hasEffects_queue
    (fun _ => .push unlocked.ioContext unlocked.waitDuration unlocked.request now) ?_ ?_⟩
  · intro impl after accessed
    rcases Option.some.inj accessed with rfl
    have pushed := impl.callbacks.push_step unlocked.ioContext unlocked.waitDuration
      unlocked.request now
    simp only [PoolImpl.push]
    split
    · exact ⟨rfl, pushed⟩
    · exact ⟨rfl, pushed⟩
  · intro impl
    change HasEffects [] _
    cases (impl.push unlocked now).2 with
    | none => trivial
    | some submission => trivial

theorem hasEffects_getBody (ioContext : IoContext) (handler : Request) (waitDuration : Duration)
    (now pushedAt : TimePoint) :
    HasEffects [] (getBody ioContext handler waitDuration now pushedAt :
      Body V Request IoContext) := by
  refine ⟨trivial, hasEffects_storage ?_ fun impl => ?_⟩
  · intro impl after accessed
    rcases Option.some.inj accessed with rfl
    rcases impl.get_cases ioContext handler waitDuration now with
      ⟨_, result⟩ | ⟨_, cell, _, result⟩ | ⟨_, _, _, result⟩ | ⟨_, _, _, result⟩
    · rw [result]
      exact ⟨Or.inl rfl, rfl⟩
    · rw [result]
      exact ⟨Or.inr ⟨.lease now, rfl⟩, rfl⟩
    · rw [result]
      exact ⟨Or.inl rfl, rfl⟩
    · rw [result]
      exact ⟨Or.inl rfl, rfl⟩
  · change HasEffects [] _
    cases (impl.get ioContext handler waitDuration now).2 with
    | submitted submission =>
        by_cases disabled : impl.disabled = true
        · simp [disabled, Program.Obeys]
        · simp [disabled, Program.Obeys]
    | unlocked unlocked => exact hasEffects_push unlocked pushedAt

theorem hasEffects_giveBack
    {release : PoolImpl V Request IoContext → Option (PoolImpl V Request IoContext)}
    {serve : QueuedValue Request IoContext → Body V Request IoContext}
    (releases : ∀ impl after, release impl = some after →
      StorageEffect impl after ∧ after.callbacks = impl.callbacks)
    (continues : ∀ queued, HasEffects [.pool] (serve queued)) :
    HasEffects [] (giveBack release serve) := by
  refine ⟨trivial, hasEffects_pop ?_⟩
  intro queued
  cases queued with
  | none => exact hasEffects_storage releases fun _ => trivial
  | some queued => exact continues queued

theorem hasEffects_cancelQueuedBody :
    HasEffects [.pool] (cancelQueuedBody : Body V Request IoContext) := by
  apply hasEffects_pop
  intro queued
  cases queued with
  | none => trivial
  | some queued => trivial

/-- The value of an invalid cell which is handed over is cleared. -/
theorem hasEffects_serveQueued (queued : QueuedValue Request IoContext) (resIt : CellIterator)
    (valid : Bool) : HasEffects [.pool] (serveQueued queued resIt valid :
      Body V Request IoContext) := by
  refine hasEffects_storage ?_ fun _ => trivial
  intro impl after accessed
  rcases onUsedCell_eq_some accessed with ⟨cell, used, rfl, rfl⟩
  cases valid with
  | true => exact ⟨Or.inl rfl, rfl⟩
  | false => exact ⟨Or.inr ⟨.handOverWasted cell, by simp [Storage.perform, used]⟩, rfl⟩

theorem hasEffects_observe {Result : Type} {mutex : PoolMutex}
    {look : PoolImpl V Request IoContext → Result} {next : Result → Body V Request IoContext}
    (continues : ∀ result, HasEffects [] (next result)) :
    HasEffects [] (observe mutex look next) := by
  refine ⟨trivial, hasEffects_storage ?_ fun impl => continues (look impl)⟩
  rintro impl _ ⟨⟩
  exact ⟨Or.inl rfl, rfl⟩

theorem hasEffects_report {Result : Type} {mutex : PoolMutex}
    {look : PoolImpl V Request IoContext → Result} {reading : Result → Reading} :
    HasEffects [] (report mutex look reading) :=
  hasEffects_observe fun _ => trivial

theorem hasEffects_statsBody : HasEffects [] (statsBody : Body V Request IoContext) :=
  hasEffects_observe fun _ => hasEffects_report

theorem hasEffects_fireBody (ioContext : IoContext) (wait : ℕ) :
    HasEffects [] (fireBody ioContext wait : Body V Request IoContext) := by
  refine hasEffects_queue (fun _ => .fire ioContext wait) ?_ fun _ => trivial
  intro impl after accessed
  simp only [PoolImpl.fire, Option.bind_eq_bind, Option.bind_eq_some_iff, Option.pure_def,
    Option.some.injEq] at accessed
  rcases accessed with ⟨callbacks, fired, rfl⟩
  exact ⟨rfl, CoherentQueue.fire_step fired⟩

theorem hasEffects_cancel (ec : WaitResult) (expiresAt : TimePoint) :
    HasEffects [] (cancel ec expiresAt : Body V Request IoContext) := by
  cases ec with
  | operationAborted => trivial
  | success =>
      refine ⟨trivial, hasEffects_queue (fun _ => .cancel .success expiresAt) ?_ fun impl => ?_⟩
      · rintro impl _ ⟨⟩
        exact ⟨rfl, impl.callbacks.cancel_step .success expiresAt⟩
      · exact Program.obeys_postEach _
          (show HasEffects [.queue] (.unlock .queue .done) from trivial)

theorem hasEffects_deliverBody (completion : ℕ) :
    HasEffects [] (deliverBody completion : Body V Request IoContext) := by
  constructor
  · intro impl after accessed
    simp only [Option.map_eq_some_iff] at accessed
    rcases accessed with ⟨wait, isCompleted, rfl⟩
    refine ⟨Or.inl rfl, .taken completion wait isCompleted rfl ?_⟩
    simp only [isCompleted]
  · intro impl
    beta_reduce
    split
    · trivial
    · next wait _ => exact hasEffects_cancel wait.ec wait.expiresAt

variable (V Request IoContext) in
theorem effects_obeyed :
    (discipline V Request IoContext).Obeys (effects V Request IoContext) := by
  intro routine
  cases routine with
  | get ioContext handler waitDuration now pushedAt =>
      exact hasEffects_getBody ioContext handler waitDuration now pushedAt
  | recycle resIt now =>
      refine hasEffects_giveBack ?_ fun queued => ?_
      · intro impl after accessed
        rcases onUsedCell_eq_some accessed with ⟨cell, used, rfl, rfl⟩
        exact ⟨Or.inr ⟨.recycle cell now, by simp [Storage.perform, used]⟩, rfl⟩
      · refine hasEffects_storage ?_ fun impl => hasEffects_serveQueued queued resIt _
        rintro impl _ ⟨⟩
        exact ⟨Or.inl rfl, rfl⟩
  | waste resIt =>
      refine hasEffects_giveBack ?_ fun queued => hasEffects_serveQueued queued resIt false
      intro impl after accessed
      rcases onUsedCell_eq_some accessed with ⟨cell, used, rfl, rfl⟩
      exact ⟨Or.inr ⟨.waste cell, by simp [Storage.perform, used]⟩, rfl⟩
  | disable =>
      refine ⟨trivial, hasEffects_storage ?_ fun _ => trivial⟩
      rintro impl _ ⟨⟩
      exact ⟨Or.inl rfl, rfl⟩
  | cancelQueued => exact hasEffects_cancelQueuedBody
  | invalidate =>
      refine ⟨trivial, hasEffects_storage ?_ fun _ => trivial⟩
      rintro impl _ ⟨⟩
      exact ⟨Or.inr ⟨.invalidate, rfl⟩, rfl⟩
  | size | available | used | queueSize | queueEmpty => exact hasEffects_report
  | stats => exact hasEffects_statsBody
  | returned => trivial
  | fire ioContext wait => exact hasEffects_fireBody ioContext wait
  | deliver completion => exact hasEffects_deliverBody completion

/-! ### Deadlines between two accesses -/

/-- What is left of `queue::cancel` under the mutex of the queue. -/
def cancelLocked (expiresAt : TimePoint) : Body V Request IoContext :=
  .access (fun impl =>
    some { impl with callbacks := (impl.callbacks.cancel .success expiresAt).2 }) fun impl =>
  Program.postEach ((impl.callbacks.cancel .success expiresAt).1.map fun value =>
    ⟨value.ioContext, .expiredHandler value.request⟩) <|
  .unlock .queue .done

/-- A call is about to cancel what expires until `expiresAt`. -/
def Cancels (expiresAt : TimePoint) (program : Body V Request IoContext) : Prop :=
  program = cancel .success expiresAt ∨ program = cancelLocked expiresAt

theorem intention_cancels (expiresAt : TimePoint) :
    Intention (Cancels expiresAt : Body V Request IoContext → Prop) := by
  rintro _ (rfl | rfl)
  · exact Or.inl ⟨.queue, cancelLocked expiresAt, rfl, Or.inr rfl⟩
  · exact Or.inr ⟨_, _, rfl⟩

theorem watched_of_cancel {impl after : PoolImpl V Request IoContext} {expiresAt : TimePoint}
    {effect : PoolImpl V Request IoContext → Option (PoolImpl V Request IoContext)}
    {next : PoolImpl V Request IoContext → Body V Request IoContext}
    (cancels : Cancels expiresAt (.access effect next)) (accessed : effect impl = some after) :
    after.callbacks.toQueue.Watched := by
  rcases cancels with isLock | isAccess
  · contradiction
  · rcases Program.access.inj isAccess with ⟨rfl, _⟩
    rcases Option.some.inj accessed with rfl
    have stepped := impl.callbacks.cancel_step .success expiresAt
    rcases Queue.cancel_timerStep stepped with ⟨aborted, _⟩ | ⟨_, _, _, isUpdate⟩
    · contradiction
    · exact Queue.watched_of_updateTimer isUpdate

namespace QueueEffect

variable {q after : Queue Request IoContext} {next : Body V Request IoContext}

theorem watched (effect : QueueEffect q after next) (watched : q.Watched) :
    after.Watched ∨ ∃ earliest rest, after.expiresAtRequests.entries = earliest :: rest ∧
      next = cancel .success earliest.key := by
  cases effect with
  | unchanged same => exact Or.inl (same ▸ watched)
  | operated event stepped => exact Or.inl (watched.step (Queue.timerStep_of_next stepped))
  | taken completion wait isCompleted removed cancels =>
      rcases wait with ⟨ioContext, ec, expiresAt⟩
      cases ec with
      | operationAborted =>
          have discarded : q.TimerStep (.deliver completion) after :=
            .discarded completion _ isCompleted rfl removed
          exact Or.inl (watched.step discarded)
      | success =>
          subst removed
          unfold Queue.Watched at watched ⊢
          split at watched
          · next none =>
              rw [none]
              exact Or.inl watched
          · next earliest rest first =>
              rw [first]
              rcases watched with ⟨own, hasContext, armed | isWatching⟩
              · exact Or.inl ⟨own, hasContext, Or.inl armed⟩
              · by_cases same : earliest.key = expiresAt
                · exact Or.inr ⟨earliest, rest, rfl, same ▸ cancels⟩
                · refine Or.inl ⟨own, hasContext, Or.inr ?_⟩
                  apply Container.mem_eraseIdx_of_ne isCompleted isWatching
                  intro equal
                  exact same (congrArg WaitCompletion.expiresAt equal)

/-- The timers are updated, or the deadlines stay as they are. -/
theorem entries (effect : QueueEffect q after next) :
    after.Watched ∨ after.expiresAtRequests.entries = q.expiresAtRequests.entries := by
  cases effect with
  | unchanged same => exact Or.inr (same ▸ rfl)
  | operated event stepped =>
      cases Queue.timerStep_of_next stepped with
      | unchanged same => exact Or.inr (same ▸ rfl)
      | updated before timers completed isUpdate =>
          exact Or.inl (Queue.watched_of_updateTimer isUpdate)
      | created ioContext missing isNew => exact Or.inr (isNew ▸ rfl)
      | fired ioContext wait timer expiresAt isFire found armed completes =>
          exact Or.inr (completes ▸ rfl)
      | discarded completion wait isCompleted aborted removed => exact Or.inr (removed ▸ rfl)
  | taken completion wait isCompleted removed cancels => exact Or.inr (removed ▸ rfl)

end QueueEffect

end Routine

namespace Threads

variable {V Request IoContext : Type} [DecidableEq IoContext]

theorem effect_of_access {s : Threads V Request IoContext} {thread : ThreadId}
    {routine : Routine Request IoContext} {after : PoolImpl V Request IoContext}
    {effect : PoolImpl V Request IoContext → Option (PoolImpl V Request IoContext)}
    {next : PoolImpl V Request IoContext → Routine.Body V Request IoContext}
    {below : List (Frame (PoolImpl V Request IoContext) PoolMutex (Submission Request IoContext)
      IoContext (Routine Request IoContext))}
    (obedient : s.Obedient (Routine.discipline V Request IoContext)
      (Routine.effects V Request IoContext))
    (atAccess : s.stack thread = .executing routine (.access effect next) :: below)
    (accessed : effect s.shared = some after) :
    Routine.StorageEffect s.shared after ∧
      Routine.QueueEffect s.shared.callbacks.toQueue after.callbacks.toQueue (next s.shared) := by
  have innermost := obedient thread (.executing routine (.access effect next))
    (atAccess ▸ List.mem_cons_self)
  rcases innermost with ⟨_, _, allowed, _⟩
  exact allowed s.shared after accessed

/-- The earliest deadline is watched, or a call is about to cancel its request. -/
def Attentive (s : Threads V Request IoContext) : Prop :=
  s.shared.callbacks.toQueue.Watched ∨
    ∃ earliest rest, s.shared.callbacks.expiresAtRequests.entries = earliest :: rest ∧
      s.Intends (Routine.Cancels earliest.key)

theorem Attentive.step {s after : Threads V Request IoContext}
    {event : Concurrency.Event IoContext (Routine Request IoContext)} (attentive : s.Attentive)
    (obedient : s.Obedient (Routine.discipline V Request IoContext)
      (Routine.effects V Request IoContext))
    (stepped : s.step (Routine.code V Request IoContext) event = some after) :
    after.Attentive := by
  have access := fun expiresAt =>
    State.step_access (Routine.intention_cancels expiresAt) stepped
  rcases attentive with watched | ⟨earliest, rest, first, intended⟩
  · rcases access Ticks.zero with
      ⟨thread, routine, effect, next, below, atAccess, accessed, moved, _⟩ | ⟨same, _⟩
    · rcases (effect_of_access obedient atAccess accessed).2.watched watched with
        isWatched | ⟨earliest, rest, first, cancels⟩
      · exact Or.inl isWatched
      · refine Or.inr ⟨earliest, rest, first, thread, routine, next s.shared, ?_, Or.inl cancels⟩
        rw [moved, Function.update_self]
        exact List.mem_cons_self
    · exact Or.inl (same ▸ watched)
  · rcases access earliest.key with
      ⟨thread, routine, effect, next, below, atAccess, accessed, moved, intends⟩ | ⟨same, intends⟩
    · rcases intends intended with later | cancels
      · rcases (effect_of_access obedient atAccess accessed).2.entries with isWatched | entries
        · exact Or.inl isWatched
        · exact Or.inr ⟨earliest, rest, entries.trans first, later⟩
      · exact Or.inl (Routine.watched_of_cancel cancels accessed)
    · exact Or.inr ⟨earliest, rest, same ▸ first, intends intended⟩

theorem storage_step {s after : Threads V Request IoContext}
    {event : Concurrency.Event IoContext (Routine Request IoContext)}
    (obedient : s.Obedient (Routine.discipline V Request IoContext)
      (Routine.effects V Request IoContext))
    (stepped : s.step (Routine.code V Request IoContext) event = some after) :
    Routine.StorageEffect s.shared after.shared := by
  rcases State.step_access (Routine.intention_cancels Ticks.zero) stepped with
    ⟨thread, routine, effect, next, below, atAccess, accessed, _⟩ | ⟨same, _⟩
  · exact (effect_of_access obedient atAccess accessed).1
  · exact Or.inl (congrArg PoolImpl.storage same)

variable {impl : PoolImpl V Request IoContext} {s : Threads V Request IoContext}

theorem obedient_of_leadsTo
    (leads : (system V Request IoContext).LeadsTo (fun _ _ => True) (State.initially impl) s) :
    s.Obedient (Routine.discipline V Request IoContext) (Routine.effects V Request IoContext) := by
  have begins : (system V Request IoContext).ReachableVia (fun _ _ => True)
      (State.initially impl) := .start ⟨impl, rfl⟩
  exact .of_reachableVia (Routine.effects_obeyed V Request IoContext)
    (begins.leadsTo (fun _ _ _ => trivial) leads)

/--
However threads interleave, the storage is in a state which its actions reach one after the
other, with the cells with which it began.
-/
theorem storage_stays_reachable (fresh : impl.Fresh)
    (leads : (system V Request IoContext).LeadsTo (fun _ _ => True) (State.initially impl) s) :
    (Storage.system V).Reachable s.shared.storage ∧
      s.shared.storage.cells.Perm impl.storage.cells := by
  induction leads with
  | refl => exact ⟨.start fresh.storage, List.Perm.refl _⟩
  | @tail before after earlier stepped ih =>
      rcases stepped with ⟨event, _, stepped⟩
      rcases storage_step (obedient_of_leadsTo earlier) stepped with same | ⟨action, performed⟩
      · rw [same]
        exact ih
      · exact ⟨ih.1.next performed, (Storage.perform_cells_perm performed).trans ih.2⟩

theorem fresh_oneCell :
    PoolImpl.Fresh (⟨Storage.empty 1 Ticks.max Ticks.max, 1, CoherentQueue.constructed 1, false⟩ :
      PoolImpl ℕ ℕ Bool) :=
  PoolImpl.fresh_of_constructed
    (show PoolImpl.constructed 1 1 Ticks.max Ticks.max = .ok _ from rfl)

/-- One thread leases the cell, another one queues a request, and a third one is in the
handler of the timer, before it locks the mutex of the queue. -/
def expiring : List (Concurrency.Event Bool (Routine ℕ Bool)) :=
  .call 0 (.get false 0 Ticks.zero (Ticks.clamp 10) (Ticks.clamp 10)) ::
  List.replicate 2 (.proceed 0 false) ++
  .call 1 (.get true 1 (Ticks.clamp 5) (Ticks.clamp 11) (Ticks.clamp 11)) ::
  .proceed 0 false :: List.replicate 7 (.proceed 1 false) ++
  .call 2 (.fire true 0) :: List.replicate 2 (.proceed 2 false) ++
  [.call 2 (.deliver 0), .proceed 2 false]

theorem storage_stays_reachable_expiring :
    ∃ s, (system ℕ ℕ Bool).execute oneCell expiring = some s ∧
      s.shared.storage.used = [0] ∧ (Storage.system ℕ).Reachable s.shared.storage := by
  have ran : ((system ℕ ℕ Bool).execute oneCell expiring).isSome := rfl
  have stays := storage_stays_reachable fresh_oneCell
    (System.LeadsTo.execute (fun _ _ _ => trivial) (Option.some_get ran).symm)
  exact ⟨_, (Option.some_get ran).symm, rfl, stays.1⟩

theorem attentive_of_leadsTo (fresh : impl.Fresh)
    (leads : (system V Request IoContext).LeadsTo (fun _ _ => True) (State.initially impl) s) :
    s.Attentive := by
  induction leads with
  | refl =>
      left
      change impl.callbacks.toQueue.Watched
      rw [fresh.callbacks]
      exact Queue.watched_of_reachable (.start rfl)
  | @tail before after earlier stepped ih =>
      rcases stepped with ⟨event, _, stepped⟩
      exact ih.step (obedient_of_leadsTo earlier) stepped

/--
However threads interleave, a wait for the earliest deadline of the queued requests is armed
on the timer of its `io_context`, or has completed with success, or a call is about to
cancel what expires until then. Without queued requests no wait is armed.
-/
theorem deadlines_stay_watched (fresh : impl.Fresh)
    (leads : (system V Request IoContext).LeadsTo (fun _ _ => True) (State.initially impl) s) :
    (s.shared.callbacks.contents ≠ [] → ∃ earliest rest,
      s.shared.callbacks.expiresAtRequests.entries = earliest :: rest ∧
      (∀ pending ∈ s.shared.callbacks.contents, earliest.key ≤ pending.deadline) ∧
      ((∃ ioContext timer, (s.shared.callbacks.node earliest.value).ioContext = some ioContext ∧
          s.shared.callbacks.timers.lookup ioContext = some timer ∧ earliest.key ∈ timer.waits) ∨
        (∃ ioContext, (s.shared.callbacks.node earliest.value).ioContext = some ioContext ∧
          ⟨ioContext, .success, earliest.key⟩ ∈ s.shared.callbacks.completed) ∨
        s.Intends (Routine.Cancels earliest.key))) ∧
    (s.shared.callbacks.contents = [] → ∀ ioContext timer,
      s.shared.callbacks.timers.lookup ioContext = some timer → timer.waits = []) := by
  have coherent := s.shared.callbacks.coherent
  have isEmpty : s.shared.callbacks.contents = [] ↔
      s.shared.callbacks.expiresAtRequests.entries = [] := by
    rw [coherent.contents_eq_nil_iff, ← List.length_eq_zero_iff, ← coherent.indexed.length_eq,
      List.length_map, List.length_eq_zero_iff]
  have minimal : ∀ earliest rest,
      s.shared.callbacks.expiresAtRequests.entries = earliest :: rest →
        ∀ pending ∈ s.shared.callbacks.contents, earliest.key ≤ pending.deadline := by
    intro earliest rest first pending queued
    rcases List.mem_filterMap.mp queued with ⟨it, ordered, found⟩
    rcases coherent.exists_entry ordered with ⟨entry, isEntry, rfl⟩
    rcases coherent.queued_of_entry isEntry with ⟨request, own, _, isQueued⟩
    rw [isQueued, Option.some.injEq] at found
    subst found
    exact Container.Multimap.key_first_le first isEntry
  rcases attentive_of_leadsTo fresh leads with watched | ⟨earliest, rest, first, intended⟩
  · unfold Queue.Watched at watched
    constructor
    · intro waiting
      split at watched
      · next none => exact absurd (isEmpty.mpr none) waiting
      · next earliest rest first =>
          refine ⟨earliest, rest, first, minimal earliest rest first, ?_⟩
          rcases watched with ⟨ioContext, hasContext, ⟨timer, found, armed⟩ | isCompleted⟩
          · exact Or.inl ⟨ioContext, timer, hasContext, found, armed⟩
          · exact Or.inr (Or.inl ⟨ioContext, hasContext, isCompleted⟩)
    · intro nothing
      rw [isEmpty.mp nothing] at watched
      exact watched
  · constructor
    · intro _
      exact ⟨earliest, rest, first, minimal earliest rest first, Or.inr (Or.inr intended)⟩
    · intro nothing
      rw [isEmpty.mp nothing] at first
      contradiction

theorem deadlines_stay_watched_expiring :
    ∃ s, (system ℕ ℕ Bool).execute oneCell expiring = some s ∧
      s.shared.callbacks.completed = [] ∧
      (s.shared.callbacks.timers.lookup true).map Timer.waits = some [] ∧
      ∃ earliest rest, s.shared.callbacks.expiresAtRequests.entries = earliest :: rest ∧
        ∀ pending ∈ s.shared.callbacks.contents, earliest.key ≤ pending.deadline := by
  have ran : ((system ℕ ℕ Bool).execute oneCell expiring).isSome := rfl
  have stays := deadlines_stay_watched fresh_oneCell
    (System.LeadsTo.execute (fun _ _ _ => trivial) (Option.some_get ran).symm)
  rcases stays.1 (List.cons_ne_nil _ _) with ⟨earliest, rest, first, minimal, _⟩
  exact ⟨_, (Option.some_get ran).symm, rfl, rfl, earliest, rest, first, minimal⟩

end Threads

end ResourcePool.Async
