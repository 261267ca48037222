import ResourcePool.Async.StorageActions

/-!
# Whether disabling is final

`disable` empties the queue once. `get` looks at `_disabled` under the mutex of the pool,
but pushes after it has released this mutex, so its request may arrive in the queue of a
pool which has been disabled in between. There it is handed the next cell which comes back.
No other step can fill the queue again: the pool is disabled for good throughout a run just
if no push of the run is accepted by a disabled pool.
-/

namespace ResourcePool.Async.World

variable {V IoContext : Type} [DecidableEq IoContext]

/-- Once the pool is disabled its queue is empty, and the next step grants no cell and
submits nothing but errors. -/
def DisabledForGood (w : World V IoContext) : Prop :=
  w.impl.disabled = true →
    w.impl.callbacks.contents = [] ∧
      ∀ event after, w.step event = some after → ∀ submission ∈ w.submits after,
        submission.task.error.isSet = true ∧ submission.cell = none

/-- A push which is accepted is taken while the pool is not disabled. -/
def PushesWhenActive (w : World V IoContext) : Event V IoContext → Prop
  | .push _ _ =>
      w.impl.callbacks.contents.length < w.impl.callbacks.capacity → w.impl.disabled = false
  | _ => True

instance : DecidableRel (PushesWhenActive : World V IoContext → Event V IoContext → Prop)
  | w, .push _ _ =>
      inferInstanceAs (Decidable (w.impl.callbacks.contents.length <
        w.impl.callbacks.capacity → w.impl.disabled = false))
  | _, .get .. | _, .run .. | _, .reset .. | _, .operate _ | _, .finish .. | _, .invalidate
  | _, .disable | _, .fire .. | _, .deliver _ => .isTrue trivial

omit [DecidableEq IoContext] in
theorem submits_errors {w after : World V IoContext} {event : Event V IoContext}
    (disabled : w.impl.disabled = true) (isEmpty : w.impl.callbacks.contents = [])
    (stepped : w.Stepped event after) {submission : Submission Request IoContext}
    (isNew : submission ∈ w.submits after) :
    submission.task.error.isSet = true ∧ submission.cell = none := by
  cases stepped with
  | leased active isLeased =>
      rw [disabled] at active
      contradiction
  | refused isSet reason =>
      rcases List.mem_singleton.mp (mem_of_mem_submits rfl isNew) with rfl
      exact ⟨isSet, rfl⟩
  | overflowed isGet full =>
      rcases List.mem_singleton.mp (mem_of_mem_submits rfl isNew) with rfl
      exact ⟨rfl, rfl⟩
  | handedOn inCall used front capacity =>
      rw [isEmpty] at front
      contradiction
  | disabled emptied capacity =>
      rcases List.mem_map.mp (mem_of_mem_submits rfl isNew) with ⟨pending, _, rfl⟩
      exact ⟨rfl, rfl⟩
  | delivered expired split sublist capacity =>
      have leaves := expired.mem_iff.mp (mem_of_mem_submits rfl isNew)
      rcases List.mem_map.mp leaves with ⟨pending, _, rfl⟩
      exact ⟨rfl, rfl⟩
  | unlocked | queued | ran | ranMovedFrom | stored | storedOutside | threw | operated
  | tookBack | finishedOutside | invalidated | fired =>
      exact absurd isNew (not_mem_submits rfl)

theorem disabledForGood_iff {w : World V IoContext} :
    w.DisabledForGood ↔ (w.impl.disabled = true → w.impl.callbacks.contents = []) := by
  constructor
  · exact fun final disabled => (final disabled).1
  · intro isEmpty disabled
    refine ⟨isEmpty disabled, ?_⟩
    intro event after stepped submission isNew
    exact submits_errors disabled (isEmpty disabled) (stepped_of_step stepped).2 isNew

omit [DecidableEq IoContext] in
/-- Only a push fills the queue of a disabled pool. -/
theorem isEmpty_step {w after : World V IoContext} {event : Event V IoContext}
    (isEmpty : w.impl.disabled = true → w.impl.callbacks.contents = [])
    (pushes : w.PushesWhenActive event) (stepped : w.Stepped event after)
    (disabled : after.impl.disabled = true) : after.impl.callbacks.contents = [] := by
  cases stepped with
  | leased | refused | unlocked | overflowed | ran | ranMovedFrom | operated | stored
  | storedOutside | threw | tookBack | finishedOutside | invalidated => exact isEmpty disabled
  | queued isGet room appended capacity =>
      have active : w.impl.disabled = false := pushes room
      change w.impl.disabled = true at disabled
      rw [active] at disabled
      contradiction
  | handedOn inCall used front capacity =>
      have nothing := isEmpty disabled
      rw [front] at nothing
      contradiction
  | disabled emptied capacity => exact emptied
  | fired same capacity => exact same.trans (isEmpty disabled)
  | delivered expired split sublist capacity =>
      have nothing := isEmpty disabled
      rw [nothing] at sublist
      exact List.sublist_nil.mp sublist

omit [DecidableEq IoContext] in
theorem pushesWhenActive_of_step {w after : World V IoContext} {event : Event V IoContext}
    (isEmpty : after.impl.disabled = true → after.impl.callbacks.contents = [])
    (stepped : w.Stepped event after) : w.PushesWhenActive event := by
  cases stepped with
  | queued isGet room appended capacity =>
      intro _
      apply Bool.eq_false_iff.mpr
      intro disabled
      have nothing := isEmpty disabled
      rw [appended] at nothing
      simp at nothing
  | overflowed isGet full => exact fun room => absurd room (not_lt_of_ge full)
  | leased | refused | unlocked | ran | ranMovedFrom | stored | storedOutside | threw
  | operated | tookBack | handedOn | finishedOutside | invalidated | disabled | fired
  | delivered => trivial

/--
In every state of a run a disabled pool has an empty queue and submits nothing but errors,
just if no push of the run is accepted by a disabled pool.
-/
theorem disabledForGood_iff_pushesWhenActive {w final : World V IoContext}
    {events : List (Event V IoContext)} (isInitial : (system V IoContext).Initial w)
    (ran : (system V IoContext).execute w events = some final) :
    (system V IoContext).Throughout DisabledForGood w events ↔
      (system V IoContext).EachStep PushesWhenActive w events := by
  apply Transition.System.throughout_iff_eachStep (fun _ _ _ (_ : True) _ => trivial) ?_ ?_
    trivial ?_ ran
  · intro before event after _ final pushes stepped
    rw [disabledForGood_iff] at final ⊢
    exact isEmpty_step final pushes (stepped_of_step stepped).2
  · intro before event after _ _ stepped final
    rw [disabledForGood_iff] at final
    exact pushesWhenActive_of_step final (stepped_of_step stepped).2
  · rcases isInitial with ⟨impl, isConstructed, rfl⟩
    rw [disabledForGood_iff]
    exact fun _ => isConstructed.spec.2.2.2.2.1

/-- A request is queued when the pool is disabled. -/
def disablingRun : List (Event ℕ Bool) :=
  [.get false .recycle Ticks.zero (Ticks.clamp 10), .run 0 0,
    .get true .waste (Ticks.clamp 5) (Ticks.clamp 11), .push 0 (Ticks.clamp 12), .disable,
    .operate (.giveBack 0 .recycle), .finish 0 (Ticks.clamp 13)]

theorem disabledForGood_pending :
    (system ℕ Bool).Throughout DisabledForGood oneCell disablingRun := by
  have ran : ((system ℕ Bool).execute oneCell disablingRun).isSome := rfl
  exact (disabledForGood_iff_pushesWhenActive oneCell_initial (Option.some_get ran).symm).mpr
    (by decide)

/-- The pool is disabled between the two sections of a `get`. -/
def latePushRun : List (Event ℕ Bool) :=
  [.get false .recycle Ticks.zero (Ticks.clamp 10), .run 0 0,
    .get true .waste (Ticks.clamp 5) (Ticks.clamp 11), .disable, .push 0 (Ticks.clamp 12),
    .operate (.giveBack 0 .recycle)]

/-- The disabled pool hands a cell over to the late request. -/
theorem grants_after_disable :
    ∃ w after, (system ℕ Bool).execute oneCell latePushRun = some w ∧
      (system ℕ Bool).Reachable w ∧ w.impl.disabled = true ∧
      w.impl.callbacks.contents.length = 1 ∧
      w.step (.finish 0 (Ticks.clamp 13)) = some after ∧
      w.submits after = [⟨true, .onServeQueuedHandler (.node 0) (some ⟨1, .waste⟩)⟩] ∧
      ¬w.DisabledForGood := by
  have ran : ((system ℕ Bool).execute oneCell latePushRun).isSome := rfl
  have reached :=
    Transition.System.execute_reachable oneCell_initial (Option.some_get ran).symm
  refine ⟨_, _, (Option.some_get ran).symm, reached, rfl, rfl, rfl, rfl, ?_⟩
  intro final
  have nothing : [(_ : Container.Pending Request Bool TimePoint)] = [] := (final rfl).1
  contradiction

end ResourcePool.Async.World
