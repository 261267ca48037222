import ResourcePool.Async.Ownership
import ResourcePool.Async.QueueActions
import ResourcePool.Transition.Amortized

/-!
# What the loops of the pool cost

The sections of the asynchronous pool contain loops: `lease` looks through the available
cells, `invalidate` goes through the available and the used ones, `cancel` through the
requests which expire, `update_timer` through the timers when the queue is empty, and
`disable` pops until nothing is left. The functions named after rounds count how often the
body of a loop runs. Each round but those of `invalidate` over the used cells takes
something out which an earlier section has put in, so that they are few in a whole run.
-/

namespace ResourcePool

open Container

namespace Lists

variable {V : Type}

/-- The rounds of the loop of `lease`. -/
def leaseRounds (now : TimePoint) (node : CellId → Idle V) : List CellId → ℕ
  | [] => 0
  | candidate :: available =>
      if (node candidate).dropTime > now then 1 else 1 + leaseRounds now node available

/-- Each round takes a cell out of the available list. -/
theorem leaseRounds_add (now : TimePoint) (lists : Lists V) :
    leaseRounds now lists.node lists.available + (lists.lease now).2.available.length =
      lists.available.length := by
  have rounds : ∀ available : List CellId, leaseRounds now lists.node available +
      (available.dropWhile fun cell => (lists.node cell).dropTime ≤ now).tail.length =
        available.length := by
    intro available
    induction available with
    | nil => rfl
    | cons candidate available ih =>
        by_cases live : (lists.node candidate).dropTime > now
        · simp [leaseRounds, live, not_le_of_gt live, Nat.add_comm]
        · have ended : (lists.node candidate).dropTime ≤ now := le_of_not_gt live
          simp only [leaseRounds, live, if_false, List.dropWhile_cons, ended, decide_true, if_true,
            List.length_cons]
          omega
  have left : (lists.lease now).2.available = (lists.remaining now).tail := by
    rcases lists.lease_cases now with
      ⟨candidate, rest, live, leased⟩ | ⟨_, _, noneLive, _, leased⟩ | ⟨full, leased⟩
    · rw [leased, live, List.tail_cons]
    · rw [leased, noneLive, List.tail_nil]
    · have noneLive : lists.remaining now = [] := by simp [remaining, full.1]
      rw [leased, full.1, noneLive, List.tail_nil]
  rw [left]
  exact rounds lists.available

end Lists

namespace Async

namespace Queue

variable {Request IoContext : Type} [DecidableEq IoContext] {q after : Queue Request IoContext}

/-- The rounds of the loop of `update_timer` over the timers. -/
def updateTimerRounds (q : Queue Request IoContext) : ℕ :=
  match q.expiresAtRequests.entries with
  | [] => q.timers.entries.length
  | _ :: _ => 0

def pushRounds (q : Queue Request IoContext) (ioContext : IoContext) (waitDuration : Duration)
    (request : Request) (now : TimePoint) : ℕ :=
  if q.fitCapacity then
    { q with toIndexes :=
        q.enqueue ioContext request (TimeTraits.add now waitDuration) }.updateTimerRounds
  else 0

def popRounds (q : Queue Request IoContext) : ℕ :=
  match q.orderedRequests with
  | [] => 0
  | orderedIt :: _ =>
      match q.dequeue orderedIt with
      | none => 0
      | some (_, indexes) => { q with toIndexes := indexes }.updateTimerRounds

/-- The rounds of the loop of `cancel` over the elements which expire, and of
`update_timer`. -/
def cancelRounds (q : Queue Request IoContext) (ec : WaitResult) (expiresAt : TimePoint) : ℕ :=
  match ec with
  | .operationAborted => 0
  | .success =>
      (q.expiresAtRequests.upTo expiresAt).length +
        match q.expire expiresAt with
        | none => 0
        | some (_, indexes) => { q with toIndexes := indexes }.updateTimerRounds

/-- What the queue has to pay with: twice for each request, as its removal may create a
timer, and once for each timer. -/
def potential (q : Queue Request IoContext) : ℕ := 2 * q.contents.length + q.timers.entries.length

theorem length_insert_le (timers : AList fun _ : IoContext => Timer) (ioContext : IoContext)
    (timer : Timer) :
    (timers.insert ioContext timer).entries.length ≤ timers.entries.length + 1 := by
  rw [AList.entries_insert, List.length_cons]
  exact Nat.succ_le_succ (List.kerase_sublist ioContext timers.entries).length_le

/-- `update_timer` destroys the timers, or it may create one. -/
theorem updateTimerRounds_pays (updated : q.updateTimer = some after) :
    q.updateTimerRounds + after.timers.entries.length ≤ q.timers.entries.length + 1 := by
  rcases updateTimer_cases updated with ⟨nothing, rfl⟩ | ⟨_, _, ioContext, _, first, _, rfl⟩
  · simp [updateTimerRounds, nothing]
  · simp only [updateTimerRounds, first, Nat.zero_add]
    exact length_insert_le q.timers ioContext _

theorem length_insert_of_lookup {timers : AList fun _ : IoContext => Timer} {ioContext : IoContext}
    {timer : Timer} (found : timers.lookup ioContext = some timer) (other : Timer) :
    (timers.insert ioContext other).entries.length = timers.entries.length := by
  have member : ioContext ∈ timers.keys := AList.lookup_isSome.mp (by simp [found])
  have keys := congrArg List.length (AList.keys_insert timers (b := other) (a := ioContext))
  have fewer := List.length_erase_of_mem member
  have := List.length_pos_of_mem member
  simp only [AList.keys, List.keys, List.length_map, List.length_cons] at keys fewer this
  omega

/-- What an operation costs from its update of the timer on. -/
theorem pays_of_updateTimer {indexes : Indexes Request IoContext}
    (updated : { q with toIndexes := indexes }.updateTimer = some after) :
    { q with toIndexes := indexes }.updateTimerRounds + after.potential ≤
      2 * indexes.contents.length + q.timers.entries.length + 1 := by
  have paid := updateTimerRounds_pays updated
  change _ ≤ q.timers.entries.length + 1 at paid
  have same := toIndexes_of_updateTimer updated
  rw [potential, same]
  dsimp only at same ⊢
  omega

theorem pushRounds_pays (coherent : q.Coherent) {ioContext : IoContext} {waitDuration : Duration}
    {request : Request} {now : TimePoint} {pushed : Pushed Request IoContext}
    (isPushed : q.push ioContext waitDuration request now = some pushed) :
    q.pushRounds ioContext waitDuration request now + pushed.queue.potential ≤
      q.potential + 3 := by
  simp only [push] at isPushed
  rw [pushRounds]
  split at isPushed
  · next room =>
      simp only [Option.bind_eq_bind, Option.bind_eq_some_iff, Option.pure_def,
        Option.some.injEq] at isPushed
      rcases isPushed with ⟨updated, isUpdate, rfl⟩
      have entered := (coherent.enqueue ioContext request (TimeTraits.add now waitDuration)).2
      have paid := pays_of_updateTimer isUpdate
      rw [entered, List.length_append, List.length_singleton] at paid
      rw [if_pos room]
      change _ + updated.potential ≤ 2 * q.contents.length + q.timers.entries.length + 3
      exact le_trans paid (by omega)
  · next full =>
      rcases Option.some.inj isPushed with rfl
      rw [if_neg full, Nat.zero_add]
      exact Nat.le_add_right _ _

/-- A pop pays for itself, and for a round of the loop which calls it. -/
theorem popRounds_pays (coherent : q.Coherent) {result : Option (QueuedValue Request IoContext)}
    (popped : q.pop = some (result, after)) :
    q.popRounds + after.potential + result.toList.length ≤ q.potential := by
  rw [pop] at popped
  rw [popRounds]
  cases ordered : q.orderedRequests with
  | nil =>
      simp only [ordered, Option.pure_def, Option.some.injEq, Prod.mk.injEq] at popped
      rcases popped with ⟨rfl, rfl⟩
      simp
  | cons orderedIt rest =>
      simp only [ordered, Option.bind_eq_bind, Option.bind_eq_some_iff, Option.pure_def,
        Option.some.injEq, Prod.mk.injEq] at popped
      rcases popped with ⟨⟨value, indexes⟩, dequeued, updated, isUpdate, rfl, rfl⟩
      rcases coherent.dequeue ordered with ⟨oldest, left, isLeft, _, contents⟩
      rcases Prod.mk.inj (Option.some.inj (dequeued.symm.trans isLeft)) with ⟨_, rfl⟩
      have paid := pays_of_updateTimer isUpdate
      have before : q.potential = 2 * (indexes.contents.length + 1) + q.timers.entries.length := by
        rw [potential, contents, List.length_cons]
      simp only [dequeued, Option.toList_some, List.length_singleton] at paid ⊢
      omega

omit [DecidableEq IoContext] in
theorem length_of_expireEach {its : List NodeId} {x last : Indexes Request IoContext}
    {posted : List (QueuedValue Request IoContext)}
    (expired : x.expireEach its = some (posted, last)) : posted.length = its.length := by
  induction its generalizing x posted with
  | nil =>
      simp only [Indexes.expireEach, Option.some.injEq, Prod.mk.injEq] at expired
      rw [← expired.1, List.length_nil, List.length_nil]
  | cons it rest ih =>
      simp only [Indexes.expireEach, Option.bind_eq_bind, Option.bind_eq_some_iff,
        Option.pure_def, Option.some.injEq, Prod.mk.injEq] at expired
      rcases expired with ⟨_, _, ⟨others, _⟩, expired, rfl, rfl⟩
      rw [List.length_cons, List.length_cons, ih expired]

theorem cancelRounds_pays (coherent : q.Coherent) {ec : WaitResult} {bound : TimePoint}
    {posted : List (QueuedValue Request IoContext)}
    (cancelled : q.cancel ec bound = some (posted, after)) :
    q.cancelRounds ec bound + after.potential ≤ q.potential + 1 := by
  cases ec with
  | operationAborted =>
      rcases Prod.mk.inj (Option.some.inj cancelled) with ⟨_, rfl⟩
      simp [cancelRounds]
  | success =>
      simp only [cancel, Option.bind_eq_bind, Option.bind_eq_some_iff, Option.pure_def,
        Option.some.injEq, Prod.mk.injEq] at cancelled
      rcases cancelled with ⟨⟨_, indexes⟩, expired, updated, isUpdate, rfl, rfl⟩
      rcases coherent.expire bound with ⟨others, left, isLeft, _, perm, remaining⟩
      rcases Prod.mk.inj (Option.some.inj (expired.symm.trans isLeft)) with ⟨isPosted, rfl⟩
      have split := (BoundedFifo.expired_append_cancel_perm q.contents bound).length_eq
      have due : (q.expiresAtRequests.upTo bound).length =
          (BoundedFifo.expired q.contents bound).length := by
        simp only [Indexes.expire, Option.bind_eq_bind, Option.bind_eq_some_iff,
          Option.pure_def, Option.some.injEq, Prod.mk.injEq] at expired
        rcases expired with ⟨_, each, rfl, _⟩
        have posts := length_of_expireEach each
        rw [List.length_map] at posts
        rw [← posts, isPosted, perm.length_eq, List.length_map]
      have paid := pays_of_updateTimer isUpdate
      have before : q.potential = 2 * q.contents.length + q.timers.entries.length := rfl
      rw [List.length_append] at split
      simp only [cancelRounds, expired, remaining] at paid ⊢
      omega

theorem fire_pays {ioContext : IoContext} {wait : ℕ} (fired : q.fire ioContext wait = some after) :
    after.potential = q.potential := by
  simp only [fire, Option.bind_eq_bind, Option.bind_eq_some_iff, Option.pure_def,
    Option.some.injEq] at fired
  rcases fired with ⟨timer, found, expiresAt, _, rfl⟩
  simp only [potential, length_insert_of_lookup found]

end Queue

namespace PoolImpl

variable {V Request IoContext : Type} [DecidableEq IoContext]

/-- The rounds of the loop of `disable`, with those of the pops. -/
def drainRounds : ℕ → CoherentQueue Request IoContext → ℕ
  | 0, _ => 0
  | fuel + 1, callbacks =>
      match callbacks.pop with
      | (none, _) => 1
      | (some _, after) => 1 + callbacks.popRounds + drainRounds fuel after

def potential (impl : PoolImpl V Request IoContext) : ℕ :=
  impl.storage.available.length + impl.callbacks.potential

theorem pop_pays (callbacks : CoherentQueue Request IoContext) :
    callbacks.popRounds + callbacks.pop.2.potential + callbacks.pop.1.toList.length ≤
      callbacks.potential :=
  Queue.popRounds_pays callbacks.coherent (CoherentQueue.value_spec callbacks.pop_defined)

/-- `disable` pays for all its rounds but the last. -/
theorem drainRounds_pays (fuel : ℕ) (callbacks : CoherentQueue Request IoContext) :
    drainRounds fuel callbacks + (drain fuel callbacks).2.potential ≤ callbacks.potential + 1 := by
  induction fuel generalizing callbacks with
  | zero => simp [drainRounds, drain]
  | succ fuel ih =>
      have paid := pop_pays callbacks
      simp only [drainRounds, drain]
      split
      · next after result =>
          simp only [result, Option.toList_none, List.length_nil] at paid ⊢
          omega
      · next queued after result =>
          have others := ih after
          simp only [result, Option.toList_some, List.length_singleton] at paid ⊢
          omega

theorem push_pays (impl : PoolImpl V Request IoContext) (get : UnlockedGet Request IoContext)
    (now : TimePoint) :
    impl.callbacks.pushRounds get.ioContext get.waitDuration get.request now +
      (impl.push get now).1.potential ≤ impl.potential + 3 := by
  have isPushed := CoherentQueue.value_spec
    (impl.callbacks.push_defined get.ioContext get.waitDuration get.request now)
  have paid := Queue.pushRounds_pays impl.callbacks.coherent isPushed
  have after : (impl.push get now).1.potential = impl.storage.available.length +
      (impl.callbacks.push get.ioContext get.waitDuration get.request now).2.2.potential := by
    simp only [push]
    split
    · rfl
    · rfl
  rw [after]
  change _ + (impl.callbacks.push get.ioContext get.waitDuration get.request
    now).2.2.potential ≤ _ at paid
  simp only [potential]
  omega

theorem deliver_pays {impl after : PoolImpl V Request IoContext} {completion : ℕ}
    {submissions : List (Submission Request IoContext)} {wait : WaitCompletion IoContext}
    (isCompleted : impl.callbacks.completed[completion]? = some wait)
    (delivered : impl.deliver completion = some (after, submissions)) :
    { impl.callbacks.toQueue with
        completed := impl.callbacks.completed.eraseIdx completion }.cancelRounds wait.ec
          wait.expiresAt + after.potential ≤ impl.potential + 1 := by
  simp only [deliver, Option.bind_eq_bind, Option.bind_eq_some_iff, Option.pure_def,
    Option.some.injEq, Prod.mk.injEq] at delivered
  rcases delivered with ⟨⟨posted, callbacks⟩, isDelivered, rfl, _⟩
  have cancelled := CoherentQueue.deliver_step isDelivered
  simp only [Queue.deliver, isCompleted, Option.bind_eq_bind, Option.bind_some] at cancelled
  have paid := Queue.cancelRounds_pays
    (q := { impl.callbacks.toQueue with
      completed := impl.callbacks.completed.eraseIdx completion })
    impl.callbacks.coherent cancelled
  change _ + callbacks.potential ≤ impl.callbacks.potential + 1 at paid
  dsimp only [potential] at paid ⊢
  omega

theorem available_recycle_le (s : Storage V) {cell : CellId} (used : cell ∈ s.used)
    (now : TimePoint) : (s.recycle cell used now).available.length ≤ s.available.length + 1 := by
  cases valid : s.isValid cell now with
  | true =>
      rw [Storage.recycle_of_isValid used valid]
      exact le_of_eq List.length_append
  | false =>
      rw [Storage.recycle_of_not_isValid used valid]
      exact Nat.le_succ _

theorem giveBack_pays {impl after : PoolImpl V Request IoContext} {strategy : Strategy}
    {cell : CellId} {now : TimePoint} {submission : Option (Submission Request IoContext)}
    (isDefined : impl.giveBack strategy (.node cell) now = some (after, submission)) :
    impl.callbacks.popRounds + after.potential ≤ impl.potential + 1 := by
  have paid := pop_pays impl.callbacks
  rcases used_of_giveBack isDefined with ⟨_, same, used⟩
  cases same
  have restored := available_recycle_le impl.storage used now
  cases strategy with
  | recycle =>
      simp only [giveBack, recycle, used, dif_pos] at isDefined
      split at isDefined
      · next callbacks result =>
          rcases Prod.mk.inj (Option.some.inj isDefined) with ⟨rfl, _⟩
          simp only [result] at paid
          simp only [potential]
          omega
      · next queued callbacks result =>
          rcases Prod.mk.inj (Option.some.inj isDefined) with ⟨rfl, _⟩
          simp only [result] at paid
          simp only [potential, Storage.handOver]
          split
          · omega
          · change _ + (impl.storage.available.length + _) ≤ _
            omega
  | waste =>
      simp only [giveBack, waste, used, dif_pos] at isDefined
      split at isDefined
      · next callbacks result =>
          rcases Prod.mk.inj (Option.some.inj isDefined) with ⟨rfl, _⟩
          simp only [result] at paid
          change _ + (impl.storage.available.length + callbacks.potential) ≤
            impl.storage.available.length + impl.callbacks.potential + 1
          omega
      · next queued callbacks result =>
          rcases Prod.mk.inj (Option.some.inj isDefined) with ⟨rfl, _⟩
          simp only [result] at paid
          change _ + (impl.storage.available.length + callbacks.potential) ≤
            impl.storage.available.length + impl.callbacks.potential + 1
          omega

end PoolImpl

namespace World

variable {V IoContext : Type} [DecidableEq IoContext]

/-- The rounds of all loops which a step runs through. -/
def rounds (w : World V IoContext) : Event V IoContext → ℕ
  | .get _ _ _ now =>
      if w.impl.disabled then 0
      else Lists.leaseRounds now w.impl.storage.node w.impl.storage.available
  | .push get now =>
      match w.unlocked[get]? with
      | none => 0
      | some get =>
          w.impl.callbacks.pushRounds get.ioContext get.waitDuration get.request now
  | .finish handle _ =>
      match w.handles.lookup handle with
      | some ⟨_, some ⟨some (), some _, .node cell⟩⟩ =>
          if cell ∈ w.impl.storage.used then w.impl.callbacks.popRounds else 0
      | _ => 0
  | .invalidate => w.impl.storage.available.length + w.impl.storage.used.length
  | .disable => PoolImpl.drainRounds (w.impl.callbacks.size + 1) w.impl.callbacks
  | .deliver completion =>
      match w.impl.callbacks.completed[completion]? with
      | none => 0
      | some wait =>
          { w.impl.callbacks.toQueue with
            completed := w.impl.callbacks.completed.eraseIdx completion }.cancelRounds wait.ec
              wait.expiresAt
  | .run .. | .reset .. | .operate .. | .fire .. => 0

/-- What a step is granted for its rounds. -/
def grant (capacity : ℕ) : Event V IoContext → ℕ
  | .push .. => 3
  | .finish .. | .disable | .deliver .. => 1
  | .invalidate => capacity
  | .get .. | .run .. | .reset .. | .operate .. | .fire .. => 0

/-- Each step pays for its rounds. -/
theorem rounds_pays {w after : World V IoContext} {event : Event V IoContext}
    (bounded : w.impl.storage.used.length ≤ w.impl.capacity) (acted : w.act event = some after) :
    w.rounds event + after.impl.potential ≤ w.impl.potential + grant w.impl.capacity event := by
  cases event with
  | get ioContext useStrategy waitDuration now =>
      have paid := Lists.leaseRounds_add now w.impl.storage.toLists
      cases stepped_of_act acted with
      | leased active isLeased =>
          simp only [rounds, active, Bool.false_eq_true, if_false, grant, PoolImpl.potential,
            Nat.add_zero, ← Nat.add_assoc]
          exact Nat.add_le_add_right (le_of_eq paid) _
      | refused isSet reason =>
          rcases reason with disabled | ⟨full, _⟩
          · simp [rounds, disabled, grant, World.submit]
          · simp [rounds, full.1, Lists.leaseRounds, grant, World.submit]
      | unlocked active full waits => simp [rounds, full.1, Lists.leaseRounds, grant]
  | push index now =>
      simp only [act] at acted
      split at acted
      · contradiction
      · next get isGet =>
          rw [← Option.some.inj acted]
          simp only [rounds, isGet]
          exact w.impl.push_pays get now
  | finish handle now =>
      simp only [act] at acted
      split at acted
      · next returning call inCall =>
          split at acted
          · next undefined =>
              rw [← Option.some.inj acted]
              have idle : w.rounds (.finish handle now) = 0 := by
                rcases call with ⟨_ | _, _ | strategy, _ | cell⟩ <;> simp [rounds, inCall]
                exact fun used => absurd used (PoolImpl.giveBack_none undefined cell rfl)
              rw [idle, Nat.zero_add]
              exact Nat.le_succ _
          · next impl submission result =>
              rw [← Option.some.inj acted]
              simp only [callSection] at result
              split at result
              · next strategy resourceIt =>
                  rcases PoolImpl.used_of_giveBack result with ⟨cell, rfl, used⟩
                  simp only [rounds, inCall, used, if_true]
                  exact PoolImpl.giveBack_pays result
              · contradiction
      · contradiction
  | invalidate =>
      rw [← Option.some.inj acted]
      change _ + _ + (0 + w.impl.callbacks.potential) ≤
        w.impl.storage.available.length + w.impl.callbacks.potential + w.impl.capacity
      omega
  | disable =>
      have paid := PoolImpl.drainRounds_pays (w.impl.callbacks.size + 1) w.impl.callbacks
      rw [← Option.some.inj acted]
      change PoolImpl.drainRounds (w.impl.callbacks.size + 1) w.impl.callbacks +
        (w.impl.storage.available.length +
          (PoolImpl.drain (w.impl.callbacks.size + 1) w.impl.callbacks).2.potential) ≤
        w.impl.storage.available.length + w.impl.callbacks.potential + 1
      omega
  | fire ioContext wait =>
      simp only [act, PoolImpl.fire, Option.map_eq_some_iff, Option.bind_eq_bind,
        Option.bind_eq_some_iff, Option.pure_def, Option.some.injEq] at acted
      rcases acted with ⟨_, ⟨callbacks, fired, rfl⟩, rfl⟩
      have same := Queue.fire_pays (CoherentQueue.fire_step fired)
      simp only [rounds, grant, PoolImpl.potential, same]
      omega
  | deliver completion =>
      simp only [act, Option.map_eq_some_iff] at acted
      rcases acted with ⟨⟨impl, submissions⟩, delivered, rfl⟩
      cases isCompleted : w.impl.callbacks.completed[completion]? with
      | none => simp [PoolImpl.deliver, CoherentQueue.deliver, isCompleted] at delivered
      | some wait =>
          simp only [rounds, isCompleted]
          exact PoolImpl.deliver_pays isCompleted delivered
  | run | reset | operate =>
      cases stepped_of_act acted <;>
      · change 0 + w.impl.potential ≤ w.impl.potential + 0
        omega

def isInvalidate : Event V IoContext → Bool
  | .invalidate => true
  | _ => false

omit [DecidableEq IoContext] in
theorem totalGrant_le (capacity : ℕ) (events : List (Event V IoContext)) :
    Transition.System.totalGrant (grant capacity) events ≤
      capacity * events.countP isInvalidate + 3 * events.length := by
  induction events with
  | nil => simp [Transition.System.totalGrant]
  | cons event events ih =>
      have one : grant capacity event ≤
          capacity * (if isInvalidate event = true then 1 else 0) + 3 := by
        cases event <;> simp [grant, isInvalidate]
      rw [Transition.System.totalGrant, List.countP_cons, List.length_cons, Nat.mul_add]
      omega

omit [DecidableEq IoContext] in
theorem Stepped.capacity {w after : World V IoContext} {event : Event V IoContext}
    (stepped : w.Stepped event after) : after.impl.capacity = w.impl.capacity := by
  cases stepped <;> rfl

omit [DecidableEq IoContext] in
theorem Owned.used_length_le {w : World V IoContext} (owned : w.Owned) :
    w.impl.storage.used.length ≤ w.impl.capacity := by
  have cells := owned.cells.length_eq
  rw [Storage.length_cells, List.length_range] at cells
  omega

omit [DecidableEq IoContext] in
theorem Constructed.potential_le {impl : PoolImpl V Request IoContext}
    (isConstructed : Constructed impl) : impl.potential ≤ impl.capacity := by
  rcases isConstructed.spec with ⟨_, _, cells, _, nothing, _⟩
  have total := congrArg List.length cells
  rw [Storage.length_cells, List.length_range, Storage.freeCells] at total
  have timers := congrArg Queue.timers isConstructed.fresh.callbacks
  simp only [PoolImpl.potential, Queue.potential, nothing, timers, Queue.constructed]
  change _ + (2 * 0 + 0) ≤ _
  omega

/--
The loops of the pool are cheap over any run from its construction: together they take at
most three rounds for each step, and one for each cell at the construction of the pool and at
each `invalidate`.
-/
theorem rounds_amortized {w final : World V IoContext} {events : List (Event V IoContext)}
    (isInitial : (system V IoContext).Initial w)
    (ran : (system V IoContext).execute w events = some final) :
    (system V IoContext).totalCharge rounds w events ≤
      w.impl.capacity * (events.countP isInvalidate + 1) + 3 * events.length := by
  have preserved : ∀ before event after,
      (system V IoContext).Reachable before ∧ before.impl.capacity = w.impl.capacity →
      before.step event = some after →
        (system V IoContext).Reachable after ∧ after.impl.capacity = w.impl.capacity := by
    rintro before event after ⟨reached, capacity⟩ stepped
    exact ⟨reached.next stepped, (stepped_of_step stepped).2.capacity.trans capacity⟩
  have pays : ∀ before event after,
      (system V IoContext).Reachable before ∧ before.impl.capacity = w.impl.capacity →
      before.step event = some after →
        before.rounds event + after.impl.potential ≤
          before.impl.potential + grant w.impl.capacity event := by
    rintro before event after ⟨reached, capacity⟩ stepped
    have owned := owned_of_reachable reached
    rw [step, if_neg (by simp [owned.isDefined])] at stepped
    rw [← capacity]
    exact rounds_pays owned.used_length_le stepped
  have total := Transition.System.totalCharge_le preserved pays ⟨.start isInitial, rfl⟩ ran
  have granted := totalGrant_le w.impl.capacity events
  have begins : w.impl.potential ≤ w.impl.capacity := by
    rcases isInitial with ⟨impl, isConstructed, rfl⟩
    exact isConstructed.potential_le
  rw [Nat.mul_add, Nat.mul_one]
  omega

/-- A request expires while another client holds the cell, and the pool is then disabled. -/
def costlyRun : List (Event ℕ Bool) :=
  [.get false .recycle Ticks.zero (Ticks.clamp 10),
    .get true .recycle (Ticks.clamp 5) (Ticks.clamp 11), .push 0 (Ticks.clamp 11),
    .fire true 0, .deliver 0, .invalidate, .disable]

/-- One round of `cancel`, one over the timers, one over the used cells, and one of `disable`. -/
theorem rounds_amortized_costly :
    (system ℕ Bool).totalCharge rounds oneCell costlyRun = 4 ∧
      (system ℕ Bool).totalCharge rounds oneCell costlyRun ≤ 1 * (1 + 1) + 3 * 7 := by
  have ran : ((system ℕ Bool).execute oneCell costlyRun).isSome := rfl
  exact ⟨rfl, rounds_amortized oneCell_initial (Option.some_get ran).symm⟩

end World

end Async

end ResourcePool
