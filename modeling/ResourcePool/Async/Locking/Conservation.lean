import ResourcePool.Async.Locking.Guards
import ResourcePool.Concurrency.Conservation
import ResourcePool.Handles

/-!
# Threads neither lose requests nor cells

Two quantities which the threads of a pool hand on. A request comes to the pool with a call
of `get`, may wait in the queue, and leaves with one submission. A cell leaves the storage
with a submission, and comes back with a call of `recycle` or `waste`, which may pass it to
the next submission. Every routine accounts for both, whatever other threads do between
its accesses.
-/

namespace ResourcePool.Async

open Concurrency Transition

/-- The cell which a handler is called with. -/
def Submission.grantedCell {Request IoContext : Type} (submission : Submission Request IoContext) :
    Option CellId :=
  cellOf submission.task.listIterator

/-- The cells which are not used. -/
def PoolImpl.free {V Request IoContext : Type} (impl : PoolImpl V Request IoContext) :
    Multiset CellId :=
  ↑(impl.storage.available ++ impl.storage.wasted)

namespace Routine

variable {V Request IoContext : Type}

def request : Routine Request IoContext → Option Request
  | get _ handler _ _ _ => some handler
  | _ => none

/-- The cell which a call gives back. -/
def cell : Routine Request IoContext → Option CellId
  | recycle resIt _ | waste resIt => cellOf resIt
  | _ => none

variable (V Request IoContext) in
/-- Requests wait in the queue. -/
def requests :
    Ledger (PoolImpl V Request IoContext) (Submission Request IoContext)
      (Routine Request IoContext) (Multiset Request) where
  stored impl := ↑(impl.callbacks.contents.map Container.Pending.item)
  passed submission := ↑submission.task.handler.toList
  given routine := ↑routine.request.toList

variable (V Request IoContext) in
/-- Cells wait in the storage. -/
def cells :
    Ledger (PoolImpl V Request IoContext) (Submission Request IoContext)
      (Routine Request IoContext) (Multiset CellId) where
  stored := PoolImpl.free
  passed submission := ↑submission.grantedCell.toList
  given routine := ↑routine.cell.toList

variable [DecidableEq IoContext]

omit [DecidableEq IoContext] in
theorem sum_toList {α β : Type} (items : List α) (part : α → Option β) :
    (items.map fun item => (↑(part item).toList : Multiset β)).sum =
      ↑(items.filterMap part) := by
  induction items with
  | nil => rfl
  | cons item items ih =>
      rw [List.map_cons, List.sum_cons, ih, Multiset.coe_add]
      cases found : part item <;> simp [found]

/-! ### Requests -/

abbrev CarriesRequests (carried : Multiset Request) (program : Body V Request IoContext) : Prop :=
  program.Carries (requests V Request IoContext) carried

omit [DecidableEq IoContext] in
/-- An access which leaves the queue as it is. -/
theorem carriesRequests_access {carried : Multiset Request}
    {effect : PoolImpl V Request IoContext → Option (PoolImpl V Request IoContext)}
    {next : PoolImpl V Request IoContext → Body V Request IoContext}
    (keeps : ∀ impl after, effect impl = some after →
      after.callbacks.contents = impl.callbacks.contents)
    (carries : ∀ impl, CarriesRequests carried (next impl)) :
    CarriesRequests carried (.access effect next) := by
  intro impl after accessed
  refine ⟨carried, ?_, carries impl⟩
  simp only [requests, keeps impl after accessed]

theorem carriesRequests_pop {carried : Multiset Request}
    {next : Option (QueuedValue Request IoContext) → Body V Request IoContext}
    (nothing : CarriesRequests carried (next none))
    (oldest : ∀ pending, CarriesRequests (carried + {pending.item})
      (next (some (Indexes.handedOut pending)))) :
    CarriesRequests carried (pop next) := by
  intro impl after accessed
  rcases Option.some.inj accessed with rfl
  rcases impl.callbacks.pop_cases with
    ⟨_, popped⟩ | ⟨pending, rest, callbacks, front, popped, _, remaining⟩
  · refine ⟨carried, by rw [popped], ?_⟩
    change CarriesRequests carried (next impl.callbacks.pop.1)
    rw [popped]
    exact nothing
  · refine ⟨carried + {pending.item}, ?_, ?_⟩
    · simp only [requests, popped, front, remaining, List.map_cons, ← Multiset.cons_coe]
      rw [← Multiset.singleton_add]
      abel
    · change CarriesRequests _ (next impl.callbacks.pop.1)
      rw [popped]
      exact oldest pending

theorem carriesRequests_push (unlocked : UnlockedGet Request IoContext) (now : TimePoint) :
    CarriesRequests {unlocked.request} (push unlocked now : Body V Request IoContext) := by
  intro impl after accessed
  rcases Option.some.inj accessed with rfl
  rcases impl.push_cases unlocked now with ⟨_, refused⟩ | ⟨_, callbacks, accepted, _, appended⟩
  · refine ⟨{unlocked.request}, by rw [refused], ?_⟩
    simp only [Program.Carries, refused]
    exact ⟨0, (add_zero _).symm, rfl⟩
  · refine ⟨0, ?_, ?_⟩
    · simp only [requests, accepted, appended, List.map_append, List.map_singleton,
        ← Multiset.coe_add, Multiset.coe_singleton, add_zero]
    · simp only [Program.Carries, accepted]

theorem carriesRequests_getBody (ioContext : IoContext) (handler : Request)
    (waitDuration : Duration) (now pushedAt : TimePoint) :
    CarriesRequests {handler}
      (getBody ioContext handler waitDuration now pushedAt : Body V Request IoContext) := by
  intro impl after accessed
  rcases Option.some.inj accessed with rfl
  refine ⟨{handler}, ?_, ?_⟩
  · rcases impl.get_cases ioContext handler waitDuration now with
      ⟨_, result⟩ | ⟨_, _, _, result⟩ | ⟨_, _, _, result⟩ | ⟨_, _, _, result⟩ <;>
    · simp only [requests, result]
  · rcases impl.get_cases ioContext handler waitDuration now with
      ⟨disabled, result⟩ | ⟨active, _, _, result⟩ | ⟨active, _, _, result⟩ | ⟨_, _, _, result⟩
    · simp only [result, disabled, if_true]
      exact ⟨0, (add_zero _).symm, rfl⟩
    · simp only [result, active]
      exact ⟨0, (add_zero _).symm, rfl⟩
    · simp only [result, active]
      exact ⟨0, (add_zero _).symm, rfl⟩
    · simp only [result]
      exact carriesRequests_push _ pushedAt

omit [DecidableEq IoContext] in
theorem carriesRequests_serveQueued (pending : Container.Pending Request IoContext TimePoint)
    (resIt : CellIterator) (valid : Bool) :
    CarriesRequests {pending.item}
      (serveQueued (Indexes.handedOut pending) resIt valid : Body V Request IoContext) := by
  refine carriesRequests_access ?_ fun impl => ⟨0, (add_zero _).symm, rfl⟩
  intro impl after accessed
  rcases onUsedCell_eq_some accessed with ⟨_, _, _, rfl⟩
  rfl

theorem carriesRequests_giveBack
    {release : PoolImpl V Request IoContext → Option (PoolImpl V Request IoContext)}
    {serve : QueuedValue Request IoContext → Body V Request IoContext}
    (keeps : ∀ impl after, release impl = some after →
      after.callbacks.contents = impl.callbacks.contents)
    (carries : ∀ pending, CarriesRequests {pending.item} (serve (Indexes.handedOut pending))) :
    CarriesRequests 0 (giveBack release serve) := by
  refine Program.carries_lock (carriesRequests_pop ?_ fun pending => ?_)
  · exact carriesRequests_access keeps fun _ => Eq.refl (0 : Multiset Request)
  · rw [zero_add]
    exact carries pending

theorem carriesRequests_cancelQueuedBody :
    CarriesRequests 0 (cancelQueuedBody : Body V Request IoContext) := by
  refine carriesRequests_pop rfl fun pending => ⟨0, ?_, rfl⟩
  rw [zero_add, add_zero]
  rfl

omit [DecidableEq IoContext] in
/-- The requests which a call of `cancel` posts as expired. -/
theorem passed_expired {posted : List (QueuedValue Request IoContext)}
    {leaving : List (Container.Pending Request IoContext TimePoint)}
    (handed : posted.Perm (leaving.map Indexes.handedOut)) :
    ((posted.map fun value =>
      (⟨value.ioContext, .expiredHandler value.request⟩ : Submission Request IoContext)).map
        (requests V Request IoContext).passed).sum =
      ↑(leaving.map Container.Pending.item) := by
  have request :
      (posted.filterMap QueuedValue.request).Perm (leaving.map Container.Pending.item) := by
    refine (handed.filterMap QueuedValue.request).trans ?_
    rw [List.filterMap_map]
    exact List.Perm.of_eq (List.filterMap_eq_map (f := Container.Pending.item) ▸ rfl)
  rw [← Multiset.coe_eq_coe.mpr request, ← sum_toList, List.map_map]
  rfl

theorem carriesRequests_cancel (ec : WaitResult) (expiresAt : TimePoint) :
    CarriesRequests 0 (cancel ec expiresAt : Body V Request IoContext) := by
  cases ec with
  | operationAborted => rfl
  | success =>
      intro impl after accessed
      rcases Option.some.inj accessed with rfl
      rcases impl.callbacks.cancel_cases .success expiresAt with ⟨leaving, handed, split, _, _⟩
      refine ⟨↑(leaving.map Container.Pending.item), ?_, ?_⟩
      · have same := split.map Container.Pending.item
        simp only [requests, add_zero]
        rw [← Multiset.coe_eq_coe.mpr same, List.map_append, ← Multiset.coe_add, add_comm]
      · have posts := Program.carries_postEach
          ((impl.callbacks.cancel .success expiresAt).1.map fun value =>
            (⟨value.ioContext, .expiredHandler value.request⟩ : Submission Request IoContext))
          (show CarriesRequests 0 (.unlock .queue .done : Body V Request IoContext) from rfl)
        rwa [passed_expired handed, add_zero] at posts

variable (V Request IoContext) in
theorem requests_balanced :
    (code V Request IoContext).Balanced (requests V Request IoContext) := by
  intro routine
  cases routine with
  | get ioContext handler waitDuration now pushedAt =>
      exact carriesRequests_getBody ioContext handler waitDuration now pushedAt
  | recycle resIt now =>
      apply carriesRequests_giveBack
      · intro impl after accessed
        rcases onUsedCell_eq_some accessed with ⟨_, _, _, rfl⟩
        rfl
      · intro pending
        exact Program.carries_read fun impl =>
          carriesRequests_serveQueued pending resIt (impl.isValid resIt now)
  | waste resIt =>
      apply carriesRequests_giveBack
      · intro impl after accessed
        rcases onUsedCell_eq_some accessed with ⟨_, _, _, rfl⟩
        rfl
      · exact fun pending => carriesRequests_serveQueued pending resIt false
  | disable =>
      refine carriesRequests_access ?_ fun _ => rfl
      rintro impl _ ⟨⟩
      rfl
  | cancelQueued =>
      exact carriesRequests_cancelQueuedBody
  | invalidate =>
      refine carriesRequests_access ?_ fun _ => rfl
      rintro impl _ ⟨⟩
      rfl
  | size | available | used | queueSize | queueEmpty => exact Program.carries_read fun _ => rfl
  | stats => exact Program.carries_read fun _ => Program.carries_read fun _ => rfl
  | returned => rfl
  | fire ioContext wait =>
      refine carriesRequests_access ?_ fun _ => rfl
      intro impl after accessed
      simp only [PoolImpl.fire, Option.bind_eq_bind, Option.bind_eq_some_iff, Option.pure_def,
        Option.some.injEq] at accessed
      rcases accessed with ⟨callbacks, fired, rfl⟩
      exact (CoherentQueue.fire_contents fired).1
  | deliver completion =>
      refine carriesRequests_access ?_ fun impl => ?_
      · intro impl after accessed
        simp only [Option.map_eq_some_iff] at accessed
        rcases accessed with ⟨_, _, rfl⟩
        rfl
      · split
        · rfl
        · next wait _ => exact carriesRequests_cancel wait.ec wait.expiresAt

/-! ### Cells -/

abbrev CarriesCells (carried : Multiset CellId) (program : Body V Request IoContext) : Prop :=
  program.Carries (cells V Request IoContext) carried

omit [DecidableEq IoContext] in
/-- What a change of the used cells does to the others. -/
theorem free_of_used {before after : PoolImpl V Request IoContext} {given taken : Multiset CellId}
    (same : after.storage.cells.Perm before.storage.cells)
    (used : (↑after.storage.used : Multiset CellId) + given = ↑before.storage.used + taken) :
    after.free + taken = before.free + given := by
  ext cell
  have together := same.count_eq cell
  have usedOnes := congrArg (Multiset.count cell) used
  simp only [Lists.cells, List.count_append] at together
  simp only [Multiset.count_add, Multiset.coe_count] at usedOnes
  simp only [PoolImpl.free, Multiset.count_add, Multiset.coe_count, List.count_append]
  omega

omit [DecidableEq IoContext] in
/-- An access which leaves the used cells as they are. -/
theorem carriesCells_access {carried : Multiset CellId}
    {effect : PoolImpl V Request IoContext → Option (PoolImpl V Request IoContext)}
    {next : PoolImpl V Request IoContext → Body V Request IoContext}
    (keeps : ∀ impl after, effect impl = some after → after.storage.used = impl.storage.used ∧
      after.storage.cells.Perm impl.storage.cells)
    (carries : ∀ impl, CarriesCells carried (next impl)) :
    CarriesCells carried (.access effect next) := by
  intro impl after accessed
  refine ⟨carried, ?_, carries impl⟩
  rcases keeps impl after accessed with ⟨used, same⟩
  exact free_of_used same (by rw [used])

omit [DecidableEq IoContext] in
/-- An access to other parts of the pool. -/
theorem carriesCells_elsewhere {carried : Multiset CellId}
    {effect : PoolImpl V Request IoContext → Option (PoolImpl V Request IoContext)}
    {next : PoolImpl V Request IoContext → Body V Request IoContext}
    (keeps : ∀ impl after, effect impl = some after → after.storage = impl.storage)
    (carries : ∀ impl, CarriesCells carried (next impl)) :
    CarriesCells carried (.access effect next) := by
  apply carriesCells_access ?_ carries
  intro impl after accessed
  rw [keeps impl after accessed]
  exact ⟨rfl, List.Perm.refl _⟩

theorem carriesCells_pop {carried : Multiset CellId}
    {next : Option (QueuedValue Request IoContext) → Body V Request IoContext}
    (carries : ∀ queued, CarriesCells carried (next queued)) :
    CarriesCells carried (pop next) := by
  refine Program.carries_lock (carriesCells_elsewhere ?_ fun impl => carries impl.callbacks.pop.1)
  rintro impl _ ⟨⟩
  rfl

theorem carriesCells_push (unlocked : UnlockedGet Request IoContext) (now : TimePoint) :
    CarriesCells 0 (push unlocked now : Body V Request IoContext) := by
  intro impl after accessed
  rcases Option.some.inj accessed with rfl
  rcases impl.push_cases unlocked now with ⟨_, refused⟩ | ⟨_, callbacks, accepted, _, _⟩
  · refine ⟨0, by rw [refused], ?_⟩
    simp only [Program.Carries, refused]
    exact ⟨0, rfl, rfl⟩
  · refine ⟨0, by rw [accepted]; rfl, ?_⟩
    simp only [Program.Carries, accepted]

theorem carriesCells_getBody (ioContext : IoContext) (handler : Request)
    (waitDuration : Duration) (now pushedAt : TimePoint) :
    CarriesCells 0
      (getBody ioContext handler waitDuration now pushedAt : Body V Request IoContext) := by
  intro impl after accessed
  rcases Option.some.inj accessed with rfl
  rcases impl.get_cases ioContext handler waitDuration now with
    ⟨disabled, result⟩ | ⟨active, cell, leased, result⟩ | ⟨active, _, _, result⟩ |
      ⟨_, _, _, result⟩
  · refine ⟨0, by rw [result], ?_⟩
    simp only [result, disabled, if_true]
    exact ⟨0, rfl, rfl⟩
  · refine ⟨{cell}, ?_, ?_⟩
    · rw [result]
      refine free_of_used (impl.storage.toLists.lease_perm now) ?_
      rw [Storage.lease_some leased, ← Multiset.coe_add, add_zero]
      rfl
    · simp only [result, active]
      exact ⟨0, rfl, rfl⟩
  · refine ⟨0, by rw [result], ?_⟩
    simp only [result, active]
    exact ⟨0, rfl, rfl⟩
  · refine ⟨0, by rw [result], ?_⟩
    simp only [result]
    exact carriesCells_push _ pushedAt

omit [DecidableEq IoContext] in
theorem carriesCells_serveQueued (queued : QueuedValue Request IoContext) (cell : CellId)
    (valid : Bool) :
    CarriesCells {cell} (serveQueued queued (.node cell) valid : Body V Request IoContext) := by
  refine carriesCells_access ?_ fun impl => ⟨0, rfl, rfl⟩
  intro impl after accessed
  rcases onUsedCell_eq_some accessed with ⟨_, _, _, rfl⟩
  cases valid with
  | true => exact ⟨rfl, List.Perm.refl _⟩
  | false => exact ⟨rfl, List.Perm.refl _⟩

theorem carriesCells_giveBack {carried : Multiset CellId}
    {release : PoolImpl V Request IoContext → Option (PoolImpl V Request IoContext)}
    {serve : QueuedValue Request IoContext → Body V Request IoContext}
    (releases : ∀ impl after, release impl = some after → after.free = impl.free + carried)
    (carries : ∀ queued, CarriesCells carried (serve queued)) :
    CarriesCells carried (giveBack release serve) := by
  refine Program.carries_lock (carriesCells_pop fun queued => ?_)
  cases queued with
  | none =>
      intro impl after accessed
      exact ⟨0, by rw [add_zero]; exact releases impl after accessed, rfl⟩
  | some queued => exact carries queued

omit [DecidableEq IoContext] in
theorem free_of_erase {before after : PoolImpl V Request IoContext} {cell : CellId}
    (member : cell ∈ before.storage.used)
    (same : after.storage.cells.Perm before.storage.cells)
    (used : after.storage.used = before.storage.used.erase cell) :
    after.free = before.free + {cell} := by
  rw [← add_zero after.free]
  refine free_of_used same ?_
  rw [used, add_zero, ← Multiset.coe_erase, add_comm, Multiset.singleton_add]
  exact Multiset.cons_erase member

theorem carriesCells_recycleBody (resIt : CellIterator) (now : TimePoint) :
    CarriesCells ↑(cell (recycle resIt now : Routine Request IoContext)).toList
      (recycleBody resIt now : Body V Request IoContext) := by
  apply carriesCells_giveBack
  · intro impl after accessed
    rcases onUsedCell_eq_some accessed with ⟨cell, used, rfl, rfl⟩
    exact free_of_erase used (impl.storage.recycle_cells_perm used now)
      (impl.storage.recycle_used used now)
  · intro queued
    refine Program.carries_read fun impl => ?_
    cases resIt with
    | singular => exact fun _ _ accessed => nomatch accessed
    | node cell => exact carriesCells_serveQueued queued cell _

theorem carriesCells_wasteBody (resIt : CellIterator) :
    CarriesCells ↑(cell (waste resIt : Routine Request IoContext)).toList
      (wasteBody resIt : Body V Request IoContext) := by
  apply carriesCells_giveBack
  · intro impl after accessed
    rcases onUsedCell_eq_some accessed with ⟨cell, used, rfl, rfl⟩
    exact free_of_erase used (impl.storage.toLists.waste_perm used) rfl
  · intro queued
    cases resIt with
    | singular => exact fun _ _ accessed => nomatch accessed
    | node cell => exact carriesCells_serveQueued queued cell false

theorem carriesCells_cancelQueuedBody :
    CarriesCells 0 (cancelQueuedBody : Body V Request IoContext) := by
  apply carriesCells_pop
  intro queued
  cases queued with
  | none => rfl
  | some queued => exact ⟨0, rfl, rfl⟩

theorem carriesCells_cancel (ec : WaitResult) (expiresAt : TimePoint) :
    CarriesCells 0 (cancel ec expiresAt : Body V Request IoContext) := by
  cases ec with
  | operationAborted => rfl
  | success =>
      refine Program.carries_lock (carriesCells_elsewhere ?_ fun impl => ?_)
      · rintro impl _ ⟨⟩
        rfl
      · have posts := Program.carries_postEach
          ((impl.callbacks.cancel .success expiresAt).1.map fun value =>
            (⟨value.ioContext, .expiredHandler value.request⟩ : Submission Request IoContext))
          (show CarriesCells 0 (.unlock .queue .done : Body V Request IoContext) from rfl)
        have nothing : (((impl.callbacks.cancel .success expiresAt).1.map fun value =>
            (⟨value.ioContext, .expiredHandler value.request⟩ :
              Submission Request IoContext)).map (cells V Request IoContext).passed).sum = 0 := by
          rw [List.map_map]
          exact List.sum_map_zero
        rwa [nothing, zero_add] at posts

variable (V Request IoContext) in
theorem cells_balanced : (code V Request IoContext).Balanced (cells V Request IoContext) := by
  intro routine
  cases routine with
  | get ioContext handler waitDuration now pushedAt =>
      exact carriesCells_getBody ioContext handler waitDuration now pushedAt
  | recycle resIt now => exact carriesCells_recycleBody resIt now
  | waste resIt => exact carriesCells_wasteBody resIt
  | disable =>
      refine carriesCells_elsewhere ?_ fun _ => rfl
      rintro impl _ ⟨⟩
      rfl
  | cancelQueued => exact carriesCells_cancelQueuedBody
  | invalidate =>
      refine carriesCells_access ?_ fun _ => rfl
      rintro impl _ ⟨⟩
      exact ⟨rfl, impl.storage.toLists.invalidate_perm⟩
  | size | available | used | queueSize | queueEmpty => exact Program.carries_read fun _ => rfl
  | stats => exact Program.carries_read fun _ => Program.carries_read fun _ => rfl
  | returned => rfl
  | fire ioContext wait =>
      refine carriesCells_elsewhere ?_ fun _ => rfl
      intro impl after accessed
      simp only [PoolImpl.fire, Option.bind_eq_bind, Option.bind_eq_some_iff, Option.pure_def,
        Option.some.injEq] at accessed
      rcases accessed with ⟨callbacks, _, rfl⟩
      rfl
  | deliver completion =>
      refine carriesCells_elsewhere ?_ fun impl => ?_
      · intro impl after accessed
        simp only [Option.map_eq_some_iff] at accessed
        rcases accessed with ⟨_, _, rfl⟩
        rfl
      · split
        · rfl
        · next wait _ => exact carriesCells_cancel wait.ec wait.expiresAt

end Routine

namespace Threads

variable {V Request IoContext : Type} [DecidableEq IoContext]

variable (V Request IoContext) in
/-- The threads, with the calls which clients made and the handlers which began to run. -/
def journaled :
    System (Threads V Request IoContext ×
        Journal (Submission Request IoContext) (Routine Request IoContext))
      (Concurrency.Event IoContext (Routine Request IoContext)) :=
  State.journaled (Routine.code V Request IoContext)

/-- No call is in progress. -/
def Idle (s : Threads V Request IoContext) : Prop :=
  ∀ thread, ∀ frame ∈ s.stack thread, frame.isClient = true

omit [DecidableEq IoContext] in
theorem hands_of_idle {M : Type} [AddCommMonoid M]
    {ledger : Ledger (PoolImpl V Request IoContext) (Submission Request IoContext)
      (Routine Request IoContext) M}
    {s : Threads V Request IoContext} {hands : ThreadId →₀ M} (idle : s.Idle)
    (carries : ∀ thread, StackCarries ledger (s.stack thread) (hands thread)) :
    hands.degree = 0 := by
  have nothing : hands = 0 := Finsupp.ext fun thread => (carries thread).eq_zero (idle thread)
  rw [nothing, map_zero]

/-- The requests whose handlers ran, are submitted, or are queued. -/
def accounted (s : Threads V Request IoContext)
    (journal : Journal (Submission Request IoContext) (Routine Request IoContext)) :
    Multiset Request :=
  ↑(journal.begun.filterMap fun submission => submission.task.handler) +
    ↑(s.submitted.filterMap fun submission => submission.task.handler) +
    ↑(s.shared.callbacks.contents.map Container.Pending.item)

/-- The cells with which handlers ran or are submitted. -/
def granted (s : Threads V Request IoContext)
    (journal : Journal (Submission Request IoContext) (Routine Request IoContext)) :
    Multiset CellId :=
  ↑(journal.begun.filterMap Submission.grantedCell) +
    ↑(s.submitted.filterMap Submission.grantedCell)

/--
However threads interleave, the requests which are completed, submitted or queued are no
more than were queued at first or came with calls of `get`, each as often as it came.
Whenever no call is in progress, none is missing.
-/
theorem requests_conserved {impl : PoolImpl V Request IoContext} {s : Threads V Request IoContext}
    {journal : Journal (Submission Request IoContext) (Routine Request IoContext)}
    (leads : (journaled V Request IoContext).LeadsTo (fun _ _ => True)
      (State.initially impl, .empty) (s, journal)) :
    s.accounted journal ≤ ↑(impl.callbacks.contents.map Container.Pending.item) +
        ↑(journal.called.filterMap Routine.request) ∧
      (s.Idle → s.accounted journal = ↑(impl.callbacks.contents.map Container.Pending.item) +
        ↑(journal.called.filterMap Routine.request)) := by
  rcases State.balances_of_leadsTo (Routine.requests_balanced V Request IoContext) leads with
    ⟨hands, carries, balance⟩
  simp only [Ledger.tasks, Routine.requests, Routine.sum_toList] at balance
  have total : s.accounted journal + hands.degree =
      ↑(impl.callbacks.contents.map Container.Pending.item) +
        ↑(journal.called.filterMap Routine.request) := by
    refine Eq.trans ?_ balance
    rw [accounted]
    abel
  constructor
  · rw [← total]
    exact Multiset.le_add_right _ _
  · intro idle
    rw [← total, hands_of_idle idle carries, add_zero]

/-- Two threads call `get`, the second of which has to wait, and the first one gives its
cell back from its handler. -/
def handingOver (steps : ℕ) : List (Concurrency.Event Bool (Routine ℕ Bool)) :=
  .call 0 (.get false 0 Ticks.zero (Ticks.clamp 10) (Ticks.clamp 10)) ::
  .proceed 0 false ::
  .call 1 (.get true 1 (Ticks.clamp 5) (Ticks.clamp 11) (Ticks.clamp 11)) ::
  List.replicate 4 (.proceed 0 false) ++ List.replicate 7 (.proceed 1 false) ++
  .enter 0 false :: .handle 0 0 :: .call 0 (.recycle (.node 0) (Ticks.clamp 12)) ::
  List.replicate steps (.proceed 0 false)

theorem requests_conserved_handingOver :
    ∃ s journal, (journaled ℕ ℕ Bool).execute (oneCell, .empty) (handingOver 4) =
        some (s, journal) ∧
      s.accounted journal = {0} ∧ journal.called.filterMap Routine.request = [0, 1] ∧
      s.accounted journal ≤ {0, 1} := by
  have ran : ((journaled ℕ ℕ Bool).execute (oneCell, .empty) (handingOver 4)).isSome := rfl
  have conserved := requests_conserved
    (System.LeadsTo.execute (fun _ _ _ => trivial) (Option.some_get ran).symm)
  exact ⟨_, _, (Option.some_get ran).symm, rfl, rfl, conserved.1⟩

/--
However threads interleave, a cell is granted at most once more than calls have given it
back, and while it is free no more often than that. Whenever no call is in progress, each
cell is free or granted just as often as it was free at first or was given back.
-/
theorem cells_conserved {impl : PoolImpl V Request IoContext} {s : Threads V Request IoContext}
    {journal : Journal (Submission Request IoContext) (Routine Request IoContext)}
    (leads : (journaled V Request IoContext).LeadsTo (fun _ _ => True)
      (State.initially impl, .empty) (s, journal)) :
    (∀ cell, (s.granted journal).count cell + s.shared.free.count cell ≤
      (journal.called.filterMap Routine.cell).count cell + 1) ∧
    s.granted journal + s.shared.free ≤ impl.free + ↑(journal.called.filterMap Routine.cell) ∧
    (s.Idle → s.granted journal + s.shared.free =
      impl.free + ↑(journal.called.filterMap Routine.cell)) := by
  rcases State.balances_of_leadsTo (Routine.cells_balanced V Request IoContext) leads with
    ⟨hands, carries, balance⟩
  simp only [Ledger.tasks, Routine.cells, Routine.sum_toList] at balance
  have total : s.granted journal + s.shared.free + hands.degree =
      impl.free + ↑(journal.called.filterMap Routine.cell) := by
    refine Eq.trans ?_ balance
    rw [granted]
    abel
  have below : s.granted journal + s.shared.free ≤
      impl.free + ↑(journal.called.filterMap Routine.cell) := by
    rw [← total]
    exact Multiset.le_add_right _ _
  refine ⟨?_, below, ?_⟩
  · intro cell
    have counted := Multiset.count_le_of_le cell below
    have distinct := List.nodup_iff_count_le_one.mp impl.storage.distinct cell
    simp only [Lists.cells, List.count_append] at distinct
    simp only [PoolImpl.free, Multiset.count_add, Multiset.coe_count,
      List.count_append] at counted ⊢
    omega
  · intro idle
    rw [← total, hands_of_idle idle carries, add_zero]

theorem cells_conserved_handingOver :
    ∃ s journal, (journaled ℕ ℕ Bool).execute (oneCell, .empty) (handingOver 9) =
        some (s, journal) ∧
      s.granted journal = {0, 0} ∧ journal.called.filterMap Routine.cell = [0] ∧
      (s.granted journal).count 0 + s.shared.free.count 0 ≤ 1 + 1 := by
  have ran : ((journaled ℕ ℕ Bool).execute (oneCell, .empty) (handingOver 9)).isSome := rfl
  have conserved := cells_conserved
    (System.LeadsTo.execute (fun _ _ _ => trivial) (Option.some_get ran).symm)
  exact ⟨_, _, (Option.some_get ran).symm, rfl, rfl, conserved.1 0⟩

end Threads

end ResourcePool.Async
