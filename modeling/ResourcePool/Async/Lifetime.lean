import ResourcePool.Async.Delivery
import ResourcePool.Async.Queue.Memory
import ResourcePool.Lifetime.Sharing

/-!
# How long an implementation lives

An implementation is shared by its pool, by the handles, and by the `on_get_handler` of every
request: while its `get` is between the two sections, in the node of the queue which keeps it,
and in the completion which is submitted. As the queue belongs to the implementation, a queued
request keeps its own queue alive.

`Shared` is the implementation with its clients and the pointers outside of handles and
handlers, which pools have. The waits of timers only have weak pointers: the timers are
destroyed with the implementation, and the handler of a wait which has completed does nothing
if there is no queue any more.
-/

namespace ResourcePool

open Container Lifetime Transition

/-- The pointer of a handle to its pool is used, if it has one. -/
def Handle.pointerUses (handle : Handle Unit) (use : Use) : List Use :=
  match handle.poolImpl with
  | none => []
  | some () => [use]

namespace Handle

theorem count_poolImpl_le (handle : Handle Unit) : handle.poolImpl.toList.count () ≤ 1 :=
  List.count_le_length.trans Option.length_toList_le

variable {handle : Handle Unit} {count : ℕ}
  (alive : handle.poolImpl = some () → 0 < count) (uses : List Use)

include alive

theorem useEach_copies : useEach count (handle.pointerUses .copy ++ uses) =
    useEach (count + handle.poolImpl.toList.count ()) uses := by
  cases isPool : handle.poolImpl with
  | none => simp [pointerUses, isPool]
  | some pool => simpa [pointerUses, isPool] using useEach_copy (alive isPool) uses

theorem useEach_releases : useEach count (handle.pointerUses .release ++ uses) =
    useEach (count - handle.poolImpl.toList.count ()) uses := by
  cases isPool : handle.poolImpl with
  | none => simp [pointerUses, isPool]
  | some pool => simpa [pointerUses, isPool] using useEach_release (alive isPool) uses

end Handle

namespace Handles

/-- What an operation does with the pointers of the handles. A move copies the pointer of the
other handle and then resets it. -/
def uses (handles : Handles) : HandleEvent → List Use
  | .create _ => []
  | .moveConstruct _ source =>
      match handles.ready? source with
      | none => []
      | some other => other.pointerUses .copy ++ other.pointerUses .release
  | .moveAssign handle source =>
      match handles.ready? handle, handles.ready? source with
      | some target, some other =>
          other.pointerUses .copy ++ (target.pointerUses .release ++ other.pointerUses .release)
      | _, _ => []
  | .destroy handle =>
      match handles.ready? handle with
      | none => []
      | some ready => ready.pointerUses .release
  | .giveBack handle _ | .release handle =>
      match handles.ready? handle with
      | none => []
      | some ready => if ready.unusable then [] else [.access]

def poolOf (state : HandleState) : Option Unit := state.handle.poolImpl

/-- How many handles have a pointer to the pool. A handle which has given its cell back still
has one. -/
def attached (handles : Handles) : ℕ := (held poolOf handles).length

theorem attached_eq_count (handles : Handles) :
    handles.attached = (held poolOf handles).count () :=
  (List.count_eq_length.mpr fun _ _ => rfl).symm

theorem attached_pos {handles : Handles} {handle : HandleId} {state : HandleState}
    (found : handles.lookup handle = some state) (isAttached : state.handle.poolImpl = some ()) :
    0 < handles.attached := by
  have member : () ∈ held poolOf handles := mem_held found isAttached
  exact List.length_pos_of_mem member

theorem exists_attached {handles : Handles} (attached : handles.attached ≠ 0) :
    ∃ handle state, handles.lookup handle = some state ∧ state.handle.poolImpl = some () := by
  rcases List.exists_mem_of_ne_nil _ (fun nothing => attached (List.length_eq_zero_iff.mpr nothing))
    with ⟨_, member⟩
  exact exists_of_mem_held member

theorem attached_replace {handles : Handles} {handle : HandleId} {before : HandleState}
    (state : HandleState) (found : handles.lookup handle = some before)
    (same : state.handle.poolImpl = before.handle.poolImpl) :
    attached (handles.insert handle state) = handles.attached := by
  have replaced := count_held_replace poolOf state found ()
  have samePool : poolOf state = poolOf before := same
  rw [← attached_eq_count, ← attached_eq_count, samePool] at replaced
  omega

/-- A usable handle has a pointer. -/
theorem Sound.attached_pos {handles : Handles} (sound : handles.Sound) {handle : HandleId}
    {ready : Handle Unit} {call : Option (PoolCall Unit)} {resourceIt : CellIterator}
    (found : handles.lookup handle = some ⟨ready, call⟩)
    (holds : ready.resourceIt = some resourceIt) : 0 < handles.attached := by
  rcases (sound _ _ found).of_resourceIt holds with ⟨_, _, rfl, _⟩
  exact Handles.attached_pos found rfl

/-- Operations on handles account for the pointers which they copy and give up. -/
theorem Acted.useEach_uses {handles after : Handles} {event : HandleEvent} (sound : handles.Sound)
    (acted : handles.Acted event after) (others : ℕ) :
    useEach (others + handles.attached) (handles.uses event) = some (others + after.attached) := by
  -- Each pointer which is used is one of those counted before the operation.
  have alive : ∀ {handle : HandleId} {ready : Handle Unit},
      handles.lookup handle = some ⟨ready, none⟩ → ready.poolImpl = some () →
        0 < others + handles.attached :=
    fun found isAttached => Nat.add_pos_right _ (Handles.attached_pos found isAttached)
  cases acted with
  | @created handle isNew =>
      have same := count_held_insert poolOf ⟨Handle.unattached, none⟩ isNew ()
      rw [← attached_eq_count, ← attached_eq_count] at same
      rw [same]
      rfl
  | @moveConstructed handle source other isNew isReady =>
      have same := count_held_move isNew isReady
        (show poolOf ⟨other.movedFrom, none⟩ = none from rfl) ()
      rw [← attached_eq_count, ← attached_eq_count] at same
      simp only [uses, ready?_eq_some.mpr isReady]
      rw [Handle.useEach_copies (alive isReady),
        ← List.append_nil (other.pointerUses .release),
        Handle.useEach_releases fun isPool => Nat.add_pos_left (alive isReady isPool) _,
        Nat.add_sub_cancel, same]
      rfl
  | @moveAssigned handle source target other isTarget unusable isReady different =>
      have moved := count_held_moveOver isTarget isReady different
        (show poolOf ⟨other.movedFrom, none⟩ = none from rfl) ()
      rw [← attached_eq_count, ← attached_eq_count] at moved
      have atMost := target.count_poolImpl_le
      simp only [uses, ready?_eq_some.mpr isReady, ready?_eq_some.mpr isTarget]
      rw [Handle.useEach_copies (alive isReady),
        Handle.useEach_releases fun isPool => Nat.add_pos_left (alive isTarget isPool) _,
        ← List.append_nil (other.pointerUses .release), Handle.useEach_releases]
      · simp only [useEach, Option.some.injEq]
        simp only [poolOf] at moved
        omega
      · intro isPool
        have := alive isReady isPool
        rw [isPool, Option.toList_some, List.count_singleton_self]
        omega
  | @selfAssigned handle target isTarget unusable =>
      have emptied := count_held_replace poolOf ⟨target.movedFrom, none⟩ isTarget ()
      have nothing : poolOf ⟨target.movedFrom, none⟩ = none := rfl
      rw [← attached_eq_count, ← attached_eq_count, nothing, Option.toList_none, List.count_nil,
        Nat.add_zero] at emptied
      simp only [uses, ready?_eq_some.mpr isTarget]
      rw [Handle.useEach_copies (alive isTarget),
        Handle.useEach_releases fun isPool => Nat.add_pos_left (alive isTarget isPool) _,
        Nat.add_sub_cancel, ← List.append_nil (target.pointerUses .release),
        Handle.useEach_releases (alive isTarget)]
      simp only [useEach, Option.some.injEq]
      simp only [poolOf] at emptied
      omega
  | @destroyed handle ready isReady unusable =>
      have erased := count_held_erase poolOf isReady ()
      rw [← attached_eq_count, ← attached_eq_count] at erased
      simp only [uses, ready?_eq_some.mpr isReady]
      rw [← List.append_nil (ready.pointerUses .release),
        Handle.useEach_releases (alive isReady)]
      simp only [useEach, Option.some.injEq]
      simp only [poolOf] at erased
      omega
  | @threw handle strategy ready isReady unusable =>
      simp [uses, ready?_eq_some.mpr isReady, Handle.unusable, unusable, useEach]
  | @called _ handle ready strategy resourceIt calls isReady holds =>
      have same := attached_replace ⟨ready, some ⟨ready.poolImpl, strategy, resourceIt⟩⟩ isReady rfl
      have alive := sound.attached_pos isReady holds
      have accessed : handles.uses event = [.access] := by
        rcases calls with ⟨requested, rfl, _⟩ | ⟨rfl, _⟩ <;>
          simp [uses, ready?_eq_some.mpr isReady, Handle.unusable, holds]
      rw [accessed, same, useEach_access (by omega)]
      rfl

end Handles

namespace Async

variable {V IoContext : Type} [DecidableEq IoContext]

/-- The events which reach the implementation through a pointer of a pool. -/
def Event.throughOwner : Event V IoContext → Bool
  | .get .. | .invalidate | .disable => true
  | .push .. | .run .. | .reset .. | .operate _ | .finish .. | .fire .. | .deliver .. => false

/-- The events of timers. -/
def Event.weakly : Event V IoContext → Bool
  | .fire .. | .deliver .. => true
  | .get .. | .push .. | .run .. | .reset .. | .operate _ | .finish .. | .invalidate
  | .disable => false

namespace World

omit [DecidableEq IoContext]

/-- The handlers which have been submitted and not run. -/
def handlers (w : World V IoContext) : List Request :=
  w.submitted.filterMap fun submission => submission.task.handler

/-- The pointers to the implementation which handlers and handles have, each one. -/
def pointers (w : World V IoContext) : ℕ :=
  w.unlocked.length + w.impl.callbacks.keptRequests.length + w.handlers.length +
    w.handles.attached

/-- What a step does with the implementation. `make_on_get_handler` copies the pointer of the
pool; `on_get_handler` copies its own one into the handle, and is destroyed when it has run. -/
def uses (w : World V IoContext) : Event V IoContext → List Use
  | .get .. => [.copy, .access]
  | .push .. | .finish .. | .invalidate | .disable | .fire .. | .deliver .. => [.access]
  | .run submission _ =>
      match w.submitted[submission]? with
      | none => []
      | some submitted =>
          match submitted.task.handler with
          | none => []
          | some request =>
              (onGetHandler request submitted.task.error submitted.task.listIterator).pointerUses
                .copy ++ [.release]
  | .reset handle _ _ =>
      match w.handles.ready? handle with
      | none => []
      | some ready => if ready.unusable then [] else [.access]
  | .operate event => w.handles.uses event

/-- The pointers, if no node keeps a request longer than it is queued. -/
def liveHandlers (w : World V IoContext) : ℕ :=
  w.unlocked.length + w.impl.callbacks.contents.length + w.handlers.length + w.handles.attached

end World

/-- An implementation with its clients, and the number of the pointers to it which pools, or
clients which share it, have. -/
structure Shared (V IoContext : Type) where
  world : World V IoContext
  owners : ℕ

inductive SharedEvent (V IoContext : Type) where
  | world (event : Event V IoContext)
  /-- A further pointer is copied from one of the owners. -/
  | copy
  /-- A pointer is given up without a call of `disable`, as by an assignment to a pool. -/
  | reset
  /-- The destructor of a pool. -/
  | destroy

namespace Shared

def step (s : Shared V IoContext) : SharedEvent V IoContext → Option (Shared V IoContext)
  | .world event =>
      if event.throughOwner = true ∧ s.owners = 0 then none
      else (s.world.step event).map fun world => { s with world := world }
  | .copy => if s.owners = 0 then none else some { s with owners := s.owners + 1 }
  | .reset => if s.owners = 0 then none else some { s with owners := s.owners - 1 }
  | .destroy =>
      if s.owners = 0 then none
      else (s.world.step .disable).map fun world => ⟨world, s.owners - 1⟩

def system (V IoContext : Type) [DecidableEq IoContext] :
    System (Shared V IoContext) (SharedEvent V IoContext) where
  Initial s := (World.system V IoContext).Initial s.world ∧ s.owners = 1
  step := step

def sharing (V IoContext : Type) : Sharing (Shared V IoContext) (SharedEvent V IoContext) where
  pointers s := s.owners + s.world.pointers
  uses s
    | .world event => s.world.uses event
    | .copy => [.copy]
    | .reset => [.release]
    | .destroy => [.access, .release]
  weakly
    | .world event => event.weakly
    | .copy | .reset | .destroy => false

end Shared

namespace World

omit [DecidableEq IoContext] in
theorem handlers_length_eraseIdx {w : World V IoContext} {index : ℕ}
    {submission : Submission Request IoContext} {request : Request}
    (isSubmitted : w.submitted[index]? = some submission)
    (isRequest : submission.task.handler = some request) :
    ((w.submitted.eraseIdx index).filterMap fun other => other.task.handler).length + 1 =
      w.handlers.length := by
  have split := (perm_cons_eraseIdx isSubmitted).filterMap fun other => other.task.handler
  rw [handlers, split.length_eq]
  simp only [List.filterMap_cons, isRequest, List.length_cons]

omit [DecidableEq IoContext] in
theorem handlers_length_submit {w : World V IoContext}
    {submissions : List (Submission Request IoContext)}
    (handled : ∀ submission ∈ submissions, submission.task.handler.isSome = true) :
    (w.submit submissions).handlers.length = w.handlers.length + submissions.length := by
  have all : (submissions.filterMap fun other => other.task.handler).length =
      submissions.length := by
    rw [List.length_filterMap_eq_countP, List.countP_eq_length]
    exact handled
  simp only [handlers, World.submit, List.filterMap_append, List.length_append, all]

omit [DecidableEq IoContext] in
theorem liveHandlers_submit {w : World V IoContext}
    {submissions : List (Submission Request IoContext)}
    (handled : ∀ submission ∈ submissions, submission.task.handler.isSome = true) :
    (w.submit submissions).liveHandlers = w.liveHandlers + submissions.length := by
  have longer := handlers_length_submit (w := w) handled
  simp only [liveHandlers] at longer ⊢
  rw [longer]
  simp only [World.submit]
  omega

theorem pointers_eq_liveHandlers {w : World V IoContext}
    (reached : (system V IoContext).Reachable w) : w.pointers = w.liveHandlers := by
  have emptied := Queue.poolEmptied_of_reachable (queue_reachable reached)
  rw [pointers, liveHandlers,
    Indexes.keptRequests_length w.impl.callbacks.coherent emptied]

omit [DecidableEq IoContext] in
theorem attached_pos_of_call (w : World V IoContext) (sound : w.handles.Sound) {handle : HandleId}
    {returning : Handle Unit} {call : PoolCall Unit}
    (inCall : w.handles.lookup handle = some ⟨returning, some call⟩) : 0 < w.handles.attached := by
  rcases sound _ _ inCall with ⟨_, noCall⟩ | ⟨_, _, isHandle, _⟩
  · contradiction
  · exact Handles.attached_pos inCall (congrArg Handle.poolImpl isHandle)

omit [DecidableEq IoContext] in
theorem alive_of_attached {w : World V IoContext} (attached : 0 < w.handles.attached)
    (owners : ℕ) : 0 < owners + w.liveHandlers :=
  Nat.add_pos_right _ (Nat.add_pos_right _ attached)

omit [DecidableEq IoContext] in
/-- A value is stored through the pointer of a usable handle. -/
theorem useEach_reset {w : World V IoContext} (sound : w.handles.Sound) {handle : HandleId}
    {ready : Handle Unit} {resourceIt : CellIterator}
    (isReady : w.handles.lookup handle = some ⟨ready, none⟩)
    (holds : ready.resourceIt = some resourceIt) (value : V) (now : TimePoint) (owners : ℕ) :
    useEach (owners + w.liveHandlers) (w.uses (.reset handle value now)) =
      some (owners + w.liveHandlers) := by
  simp only [uses, Handles.ready?_eq_some.mpr isReady, Handle.unusable, holds]
  exact useEach_access (alive_of_attached (sound.attached_pos isReady holds) owners) []

omit [DecidableEq IoContext] in
/-- A completion which runs gives its pointer up, and a handle which is passed to the client has
one of its own. -/
theorem useEach_run {w : World V IoContext} {index : ℕ} {handle : HandleId}
    {submission : Submission Request IoContext} {request : Request} (isNew : handle ∉ w.handles)
    (isSubmitted : w.submitted[index]? = some submission)
    (isRequest : submission.task.handler = some request) (owners : ℕ) :
    useEach (owners + w.liveHandlers) (w.uses (.run index handle)) =
      some (owners + (setHandle { w with
        submitted := w.submitted.eraseIdx index
        completed := w.completed ++ [submission] } handle
          ⟨onGetHandler request submission.task.error submission.task.listIterator,
            none⟩).liveHandlers) := by
  have fewer := handlers_length_eraseIdx isSubmitted isRequest
  have joined := count_held_insert Handles.poolOf
    ⟨onGetHandler request submission.task.error submission.task.listIterator, none⟩ isNew ()
  rw [← Handles.attached_eq_count, ← Handles.attached_eq_count] at joined
  have alive : 0 < owners + w.liveHandlers := by
    rw [liveHandlers]
    omega
  simp only [uses, isSubmitted, isRequest, Handle.pointerUses]
  cases failed : submission.task.error.isSet with
  | true =>
      simp only [onGetHandler, failed, if_true, Handles.poolOf, Handle.unattached,
        Option.toList_none, List.count_nil] at joined ⊢
      rw [List.nil_append, useEach_release alive]
      simp only [useEach, liveHandlers, handlers, setHandle, Option.some.injEq] at *
      omega
  | false =>
      simp only [onGetHandler, failed, Bool.false_eq_true, if_false, Handles.poolOf,
        Handle.constructed, Option.toList_some, List.count_singleton_self] at joined ⊢
      rw [List.singleton_append, useEach_copy alive, useEach_release (Nat.succ_pos _)]
      simp only [useEach, liveHandlers, handlers, setHandle, Option.some.injEq] at *
      omega

omit [DecidableEq IoContext] in
/-- The uses of a step account for the pointers of the handlers and the handles. -/
theorem Stepped.useEach_uses {w after : World V IoContext} {event : Event V IoContext}
    (accounted : w.Accounted) (sound : w.handles.Sound) (stepped : w.Stepped event after)
    {owners : ℕ} (through : event.throughOwner = true → 0 < owners)
    (locks : event.weakly = true → 0 < owners + w.liveHandlers) :
    useEach (owners + w.liveHandlers) (w.uses event) = some (owners + after.liveHandlers) := by
  cases stepped with
  | leased active isLeased =>
      have alive : 0 < owners + w.liveHandlers := Nat.add_pos_left (through rfl) _
      rw [uses, useEach_copy alive, useEach_access (Nat.succ_pos _),
        liveHandlers_submit (by simp [Task.handler])]
      rfl
  | refused isSet reason =>
      have alive : 0 < owners + w.liveHandlers := Nat.add_pos_left (through rfl) _
      rw [uses, useEach_copy alive, useEach_access (Nat.succ_pos _),
        liveHandlers_submit (by simp [Task.handler])]
      rfl
  | unlocked active full waits =>
      have alive : 0 < owners + w.liveHandlers := Nat.add_pos_left (through rfl) _
      rw [uses, useEach_copy alive, useEach_access (Nat.succ_pos _)]
      simp only [useEach, liveHandlers, handlers, List.length_append, List.length_singleton,
        Option.some.injEq]
      omega
  | queued isGet room appended capacity =>
      have fewer := (perm_cons_eraseIdx isGet).length_eq
      rw [List.length_cons] at fewer
      have alive : 0 < owners + w.liveHandlers := by
        rw [liveHandlers]
        omega
      rw [uses, useEach_access alive]
      simp only [useEach, liveHandlers, handlers, appended, List.length_append,
        List.length_singleton, Option.some.injEq]
      omega
  | overflowed isGet full =>
      have fewer := (perm_cons_eraseIdx isGet).length_eq
      rw [List.length_cons] at fewer
      have alive : 0 < owners + w.liveHandlers := by
        rw [liveHandlers]
        omega
      rw [uses, useEach_access alive, liveHandlers_submit (by simp [Task.handler])]
      simp only [useEach, liveHandlers, handlers, List.length_singleton, Option.some.injEq]
      omega
  | ran isNew isSubmitted isRequest => exact useEach_run isNew isSubmitted isRequest owners
  | ranMovedFrom isSubmitted isMovedFrom =>
      rcases accounted.handler_of_submitted (List.mem_of_getElem? isSubmitted) with ⟨_, isRequest⟩
      rw [isRequest] at isMovedFrom
      contradiction
  | operated acted =>
      have exact := acted.useEach_uses sound
        (owners + (w.unlocked.length + w.impl.callbacks.contents.length + w.handlers.length))
      simpa only [uses, liveHandlers, handlers, Nat.add_assoc] using exact
  | stored isReady holds used => exact useEach_reset sound isReady holds _ _ owners
  | storedOutside isReady holds outside => exact useEach_reset sound isReady holds _ _ owners
  | threw isReady unusable =>
      simp [uses, Handles.ready?_eq_some.mpr isReady, Handle.unusable, unusable, useEach]
  | @tookBack handle _ returning _ _ inCall used nothingQueued =>
      have alive := alive_of_attached (w.attached_pos_of_call sound inCall) owners
      have still := Handles.attached_replace ⟨returning.returned, none⟩ inCall rfl
      rw [uses, useEach_access alive]
      simp only [useEach, liveHandlers, handlers, setHandle, still]
  | @handedOn handle _ returning _ _ oldest callbacks inCall used front capacity =>
      have alive := alive_of_attached (w.attached_pos_of_call sound inCall) owners
      have still := Handles.attached_replace ⟨returning.returned, none⟩ inCall rfl
      rw [uses, useEach_access alive]
      simp only [useEach, liveHandlers, handlers, setHandle, World.submit, still, front,
        Task.handler, List.filterMap_append, List.filterMap_cons, List.filterMap_nil,
        List.length_append, List.length_cons, List.length_nil, Option.some.injEq]
      omega
  | finishedOutside inCall outside =>
      have alive := alive_of_attached (w.attached_pos_of_call sound inCall) owners
      exact useEach_access alive []
  | invalidated =>
      have alive : 0 < owners + w.liveHandlers := Nat.add_pos_left (through rfl) _
      exact useEach_access alive []
  | disabled emptied capacity =>
      have alive : 0 < owners + w.liveHandlers := Nat.add_pos_left (through rfl) _
      have handled : ∀ submission ∈ w.impl.callbacks.contents.map Submission.disabledPending,
          submission.task.handler.isSome = true := by
        intro submission member
        rcases List.mem_map.mp member with ⟨pending, _, rfl⟩
        rfl
      rw [uses, useEach_access alive, liveHandlers_submit handled]
      simp only [useEach, liveHandlers, handlers, emptied, List.length_map, List.length_nil,
        Option.some.injEq]
      omega
  | fired same capacity =>
      rw [uses, useEach_access (locks rfl)]
      simp only [useEach, liveHandlers, handlers, same]
  | @delivered _ callbacks leaving submissions expired split sublist capacity =>
      have handled : ∀ submission ∈ submissions, submission.task.handler.isSome = true := by
        intro submission member
        rcases List.mem_map.mp (expired.mem_iff.mp member) with ⟨pending, _, rfl⟩
        rfl
      have leaves := expired.length_eq
      have splits := split.length_eq
      rw [List.length_map] at leaves
      rw [List.length_append] at splits
      rw [uses, useEach_access (locks rfl), liveHandlers_submit handled]
      simp only [useEach, liveHandlers, handlers, Option.some.injEq]
      omega

end World

namespace Shared

/-- The events and clients see the implementation as if it were not shared. -/
theorem world_reachable {s : Shared V IoContext} (reached : (system V IoContext).Reachable s) :
    (World.system V IoContext).Reachable s.world := by
  apply System.Reachable.invariant
    (motive := fun s : Shared V IoContext => (World.system V IoContext).Reachable s.world)
    ?_ ?_ reached
  · exact fun _ isInitial => System.Reachable.start isInitial.1
  · intro before event after isReached stepped
    cases event with
    | world event =>
        simp only [system, step, Option.ite_none_left_eq_some, Option.map_eq_some_iff] at stepped
        rcases stepped with ⟨_, world, moved, rfl⟩
        exact isReached.next moved
    | copy | reset =>
        simp only [system, step, Option.ite_none_left_eq_some, Option.some.injEq] at stepped
        rcases stepped with ⟨_, rfl⟩
        exact isReached
    | destroy =>
        simp only [system, step, Option.ite_none_left_eq_some, Option.map_eq_some_iff] at stepped
        rcases stepped with ⟨_, world, moved, rfl⟩
        exact isReached.next moved

theorem balanced_world {before after : World V IoContext} {event : Event V IoContext}
    (reached : (World.system V IoContext).Reachable before)
    (moved : before.step event = some after) {owners : ℕ}
    (through : event.throughOwner = true → 0 < owners)
    (locks : event.weakly = true → 0 < owners + before.pointers) :
    useEach (owners + before.pointers) (before.uses event) = some (owners + after.pointers) := by
  have accounted := World.accounted_of_reachable reached
  have owned := World.owned_of_reachable reached
  rw [World.pointers_eq_liveHandlers reached] at locks ⊢
  rw [World.pointers_eq_liveHandlers (reached.next moved)]
  exact (World.stepped_of_step moved).2.useEach_uses accounted owned.sound through locks

theorem balanced : (sharing V IoContext).Balanced (system V IoContext) := by
  intro before event after reached stepped locks
  have isReached := world_reachable reached
  cases event with
  | world event =>
      simp only [system, step, Option.ite_none_left_eq_some, Option.map_eq_some_iff] at stepped
      rcases stepped with ⟨through, world, moved, rfl⟩
      refine balanced_world isReached moved ?_ locks
      exact fun isThrough => Nat.pos_of_ne_zero fun none => through ⟨isThrough, none⟩
  | copy =>
      simp only [system, step, Option.ite_none_left_eq_some, Option.some.injEq] at stepped
      rcases stepped with ⟨owned, rfl⟩
      simp only [sharing]
      rw [useEach_copy (by omega)]
      simp only [useEach, Option.some.injEq]
      omega
  | reset =>
      simp only [system, step, Option.ite_none_left_eq_some, Option.some.injEq] at stepped
      rcases stepped with ⟨owned, rfl⟩
      simp only [sharing]
      rw [useEach_release (by omega)]
      simp only [useEach, Option.some.injEq]
      omega
  | destroy =>
      simp only [system, step, Option.ite_none_left_eq_some, Option.map_eq_some_iff] at stepped
      rcases stepped with ⟨owned, world, moved, rfl⟩
      have alive : 0 < before.owners := Nat.pos_of_ne_zero owned
      have disabled := balanced_world isReached moved (fun _ => alive)
        (fun weak => absurd weak Bool.false_ne_true)
      simp only [sharing]
      rw [World.uses, useEach_access (by omega), useEach, Option.some.injEq] at disabled
      rw [useEach_access (by omega), useEach_release (by omega)]
      simp only [useEach, Option.some.injEq]
      omega

/-- An implementation with the count of the pointers to it. -/
def countedSystem (V IoContext : Type) [DecidableEq IoContext] :
    System (Shared V IoContext × Option ℕ) (SharedEvent V IoContext) :=
  (sharing V IoContext).counted (system V IoContext)

/-- The pointers are those of the owners, of the handlers which have not run, and of the
handles. -/
theorem count_eq {s : Shared V IoContext} {count : Option ℕ}
    (reached : (countedSystem V IoContext).Reachable (s, count)) :
    count = some (s.owners + s.world.liveHandlers) := by
  have isReached : (World.system V IoContext).Reachable s.world :=
    world_reachable (Sharing.reachable_of_counted reached)
  have isPointers : (sharing V IoContext).pointers s = s.owners + s.world.pointers := rfl
  rw [balanced.count_eq reached, isPointers, World.pointers_eq_liveHandlers isReached]

/--
At all times the pointers to the implementation are those of its owners, of the handlers of
all requests which have not completed, and of the handles; no step copies or gives up a pointer
of a destroyed implementation, or reaches it. The free nodes of the queue keep no handler.
Once the implementation is destroyed it stays so.
-/
theorem use_count_is_exact {s : Shared V IoContext} {count : Option ℕ}
    (reached : (countedSystem V IoContext).Reachable (s, count)) :
    count = some (s.owners + s.world.unlocked.length + s.world.impl.callbacks.contents.length +
      s.world.submitted.length + s.world.handles.attached) ∧
    s.world.impl.callbacks.keptRequests.length = s.world.impl.callbacks.contents.length ∧
    (count = some 0 → ∀ event after later,
      (countedSystem V IoContext).step (s, count) event = some (after, later) →
        later = some 0) := by
  have isReached : (World.system V IoContext).Reachable s.world :=
    world_reachable (Sharing.reachable_of_counted reached)
  have accounted := World.accounted_of_reachable isReached
  have emptied := Queue.poolEmptied_of_reachable (World.queue_reachable isReached)
  have handled : s.world.handlers.length = s.world.submitted.length := by
    rw [World.handlers, List.length_filterMap_eq_countP, List.countP_eq_length]
    intro submission isSubmitted
    rcases accounted.handler_of_submitted isSubmitted with ⟨request, isRequest⟩
    rw [isRequest, Option.isSome_some]
  refine ⟨?_, ?_, ?_⟩
  · rw [count_eq reached, World.liveHandlers, handled]
    simp only [Option.some.injEq]
    omega
  · exact Indexes.keptRequests_length s.world.impl.callbacks.coherent emptied
  · rintro rfl event after later stepped
    exact balanced.destroyed_step reached stepped

/-- The pool is destroyed while a client has a handle, which then gives its cell back. -/
def outlivedRun : List (SharedEvent ℕ Bool) :=
  [.world (.get false .recycle Ticks.zero (Ticks.clamp 10)), .world (.run 0 0), .destroy,
    .world (.operate (.giveBack 0 .recycle)), .world (.finish 0 (Ticks.clamp 12)),
    .world (.operate (.destroy 0))]

theorem oneCell_begins :
    (countedSystem ℕ Bool).Initial (⟨World.oneCell, 1⟩, some 1) :=
  ⟨⟨World.oneCell_initial, rfl⟩, rfl⟩

/-- The last pointer is that of the handle which was given back. -/
theorem use_count_is_exact_outlived :
    ∃ s count, (countedSystem ℕ Bool).execute (⟨World.oneCell, 1⟩, some 1) outlivedRun =
        some (s, count) ∧
      count = some 0 ∧ ∀ event after later,
        (countedSystem ℕ Bool).step (s, count) event = some (after, later) → later = some 0 := by
  have ran : ((countedSystem ℕ Bool).execute (⟨World.oneCell, 1⟩, some 1) outlivedRun).isSome := rfl
  have reached := System.execute_reachable oneCell_begins (Option.some_get ran).symm
  exact ⟨_, _, (Option.some_get ran).symm, rfl, (use_count_is_exact reached).2.2 rfl⟩

end Shared

end Async

end ResourcePool
