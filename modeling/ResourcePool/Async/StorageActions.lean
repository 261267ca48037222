import ResourcePool.Async.Ownership
import ResourcePool.Storage.Projection

/-!
# The asynchronous pool acts on its storage

Which action of the storage a step of the pool performs, and that it does nothing else to
the storage. A cell is granted to a client by the steps which submit a completion with
this cell: a `get` which leases it, or the end of a `recycle` or `waste` which hands it
over.
-/

namespace ResourcePool.Async.World

variable {V IoContext : Type} [DecidableEq IoContext]

/-- How a cell which comes back is passed on. -/
def returnAction (w : World V IoContext) (strategy : Strategy) (cell : CellId)
    (now : TimePoint) : StorageAction V :=
  if w.impl.callbacks.contents = [] then
    match strategy with
    | .recycle => .recycle cell now
    | .waste => .waste cell
  else
    match strategy with
    | .recycle => .handOverRecycled cell now
    | .waste => .handOverWasted cell

/-- The action of the storage which an event performs, where it is defined. -/
def storageAction (w : World V IoContext) : Event V IoContext → Option (StorageAction V)
  | .get _ _ _ now => if w.impl.disabled then none else some (.lease now)
  | .reset handle value now =>
      match w.handles.lookup handle with
      | some ⟨⟨_, _, some (.node cell)⟩, none⟩ =>
          if cell ∈ w.impl.storage.used then some (.reset cell value now) else none
      | _ => none
  | .finish handle now =>
      match w.handles.lookup handle with
      | some ⟨_, some ⟨some (), some strategy, .node cell⟩⟩ =>
          if cell ∈ w.impl.storage.used then some (w.returnAction strategy cell now) else none
      | _ => none
  | .invalidate => some .invalidate
  | _ => none

omit [DecidableEq IoContext] in
theorem Stepped.storage {w after : World V IoContext} {event : Event V IoContext}
    (stepped : w.Stepped event after) :
    (∃ action, w.storageAction event = some action ∧
      w.impl.storage.perform action = some after.impl.storage) ∨
    (w.storageAction event = none ∧ after.impl.storage = w.impl.storage) := by
  cases stepped with
  | @leased _ _ _ now _ active isLeased =>
      exact Or.inl ⟨.lease now, by simp [storageAction, active], rfl⟩
  | @refused _ _ _ now error isSet reason =>
      by_cases disabled : w.impl.disabled = true
      · exact Or.inr ⟨by simp [storageAction, disabled], rfl⟩
      · have full : w.impl.storage.NoFreeCell := (reason.resolve_left disabled).1
        refine Or.inl ⟨.lease now, by simp [storageAction, disabled], ?_⟩
        simp [Storage.perform, Storage.lease_of_noFreeCell now full, World.submit]
  | @unlocked _ _ _ now active full waits =>
      refine Or.inl ⟨.lease now, by simp [storageAction, active], ?_⟩
      simp [Storage.perform, Storage.lease_of_noFreeCell now full]
  | queued | overflowed | ran | ranMovedFrom | operated | disabled | fired | delivered =>
      exact Or.inr ⟨rfl, rfl⟩
  | @stored handle value now ready cell isReady holds used =>
      rcases ready with ⟨_, _, resourceIt⟩
      have equal : resourceIt = some (.node cell) := holds
      subst equal
      exact Or.inl ⟨.reset cell value now, by simp [storageAction, isReady, used],
        by simp [Storage.perform, used]⟩
  | @storedOutside handle value now ready resourceIt isReady holds outside =>
      rcases ready with ⟨_, _, it⟩
      have equal : it = some resourceIt := holds
      subst equal
      refine Or.inr ⟨?_, rfl⟩
      cases resourceIt with
      | singular => simp [storageAction, isReady]
      | node cell => simp [storageAction, isReady, outside cell rfl]
  | @threw handle value now ready isReady unusable =>
      rcases ready with ⟨_, _, it⟩
      have equal : it = none := unusable
      subst equal
      exact Or.inr ⟨by simp [storageAction, isReady], rfl⟩
  | @tookBack handle now returning strategy cell inCall used nothingQueued =>
      refine Or.inl ⟨w.returnAction strategy cell now,
        by simp [storageAction, inCall, used], ?_⟩
      cases strategy <;>
        simp [returnAction, nothingQueued, Storage.perform, used, World.setHandle,
          Storage.takeBack]
  | @handedOn handle now returning strategy cell oldest callbacks inCall used front capacity =>
      refine Or.inl ⟨w.returnAction strategy cell now,
        by simp [storageAction, inCall, used], ?_⟩
      cases strategy <;>
        simp [returnAction, front, Storage.perform, used, World.setHandle, World.submit,
          Storage.handOn]
  | @finishedOutside handle now returning call inCall outside =>
      refine Or.inr ⟨?_, rfl⟩
      rcases call with ⟨_ | _, _ | strategy, _ | cell⟩ <;> simp [storageAction, inCall]
      exact outside strategy cell rfl
  | invalidated => exact Or.inl ⟨.invalidate, rfl, rfl⟩

/-- The completions which a step submits. -/
def submits (w after : World V IoContext) : List (Submission Request IoContext) :=
  after.log.drop w.log.length

omit [DecidableEq IoContext] in
theorem mem_of_mem_submits {w after : World V IoContext}
    {submissions : List (Submission Request IoContext)}
    (log : after.log = w.log ++ submissions) {submission : Submission Request IoContext}
    (isNew : submission ∈ w.submits after) : submission ∈ submissions := by
  rwa [submits, log, List.drop_left] at isNew

omit [DecidableEq IoContext] in
theorem not_mem_submits {w after : World V IoContext} (log : after.log = w.log)
    {submission : Submission Request IoContext} : submission ∉ w.submits after := by
  rw [submits, log, List.drop_length]
  exact List.not_mem_nil

omit [DecidableEq IoContext] in
/-- A completion with a cell is submitted by the step which grants this cell. -/
theorem Stepped.granted {w after : World V IoContext} {event : Event V IoContext}
    (stepped : w.Stepped event after) {submission : Submission Request IoContext}
    (isNew : submission ∈ w.submits after) {cell : CellId}
    (carries : submission.cell = some cell) :
    ∃ action, w.storageAction event = some action ∧
      w.impl.storage.granted action = some cell ∧
      ((∃ ioContext useStrategy waitDuration now,
          event = .get ioContext useStrategy waitDuration now ∧ action = .lease now) ∨
        ∃ handle now, event = .finish handle now ∧
          (action = .handOverRecycled cell now ∨ action = .handOverWasted cell)) := by
  cases stepped with
  | @leased ioContext useStrategy waitDuration now leased active isLeased =>
      rcases List.mem_singleton.mp (mem_of_mem_submits rfl isNew) with rfl
      have equal : leased = cell := Option.some.inj carries
      subst equal
      exact ⟨.lease now, by simp [storageAction, active], isLeased,
        Or.inl ⟨ioContext, useStrategy, waitDuration, now, rfl, rfl⟩⟩
  | refused | overflowed =>
      rcases List.mem_singleton.mp (mem_of_mem_submits rfl isNew) with rfl
      contradiction
  | unlocked | queued | ran | ranMovedFrom | stored | storedOutside | threw | operated
  | tookBack | finishedOutside | invalidated | fired =>
      exact absurd isNew (not_mem_submits rfl)
  | @handedOn handle now returning strategy handed oldest callbacks inCall used front capacity =>
      rcases List.mem_singleton.mp (mem_of_mem_submits rfl isNew) with rfl
      have equal : handed = cell := Option.some.inj carries
      subst equal
      refine ⟨w.returnAction strategy handed now, by simp [storageAction, inCall, used], ?_,
        Or.inr ⟨handle, now, rfl, ?_⟩⟩
      · cases strategy <;> simp [returnAction, front, Storage.granted]
      · cases strategy <;> simp [returnAction, front]
  | disabled emptied capacity =>
      rcases List.mem_map.mp (mem_of_mem_submits rfl isNew) with ⟨pending, _, rfl⟩
      contradiction
  | delivered expired split sublist capacity =>
      have leaves := expired.mem_iff.mp (mem_of_mem_submits rfl isNew)
      rcases List.mem_map.mp leaves with ⟨pending, _, rfl⟩
      contradiction

def storageSimulation : Transition.Simulation (system V IoContext) (Storage.system V) :=
  .ofSteps (fun w => w.impl.storage) storageAction
    (by
      rintro _ ⟨impl, isConstructed, rfl⟩
      exact isConstructed.spec.2.1)
    fun _ _ _ stepped => (stepped_of_step stepped).2.storage

abbrev trackedSystem (V IoContext : Type) [DecidableEq IoContext] :
    Transition.System (World V IoContext × History) (Event V IoContext) :=
  Storage.withStorageHistory storageSimulation

end ResourcePool.Async.World
