import ResourcePool.Sync.Wakeups

/-!
# A disabled synchronous pool

`disable` notifies all blocked calls, and no call blocks again: from then on calls can only
return, with errors, and cells can only come back. A blocked call returns as soon as it has
the mutex, so all of them are gone when each has had its turn.
-/

namespace ResourcePool.Sync

open Transition

/-- The result of a call which was refused, or which timed out. -/
def GetResult.Fails (result : GetResult) : Prop :=
  (result.error = .disabled ∨ result.error = .getResourceTimeout) ∧
    result.handle.resourceIt = some .singular

/-- A blocked call has the mutex again, with the clock at `now`. -/
def Event.WakesAt {V : Type} (now : TimePoint) : Event V → Prop
  | .wake _ _ .noTimeout reading => reading = now
  | _ => False

namespace World

variable {V : Type}

/-- What may have become of a pool since it was disabled. -/
structure ClosedSince (before w : World V) : Prop where
  disabled : w.impl.disabled = true
  notified : ∀ waiter ∈ w.waiters, waiter.notified = true
  waiters : w.waiters.Sublist before.waiters
  returned : ∃ results, w.returned = before.returned ++ results ∧
    ∀ result ∈ results, result.Fails
  used : w.impl.storage.used.Sublist before.impl.storage.used

theorem notifyAll_of_notified {waiters : List Waiter}
    (notified : ∀ waiter ∈ waiters, waiter.notified = true) : notifyAll waiters = waiters := by
  rw [notifyAll]
  apply (List.map_congr_left fun waiter member => ?_).trans (List.map_id waiters)
  rw [← notified waiter member, id]

theorem notifyOne_of_notified {waiters after : List Waiter} {index : Option ℕ}
    (notified : ∀ waiter ∈ waiters, waiter.notified = true)
    (notifies : notifyOne waiters index = some after) : after = waiters := by
  rcases notifyOne_cases notifies with ⟨_, same⟩ | ⟨fewer, _⟩
  · exact same
  · have nobody : sleeping waiters = 0 := by
      simpa [sleeping, List.countP_eq_zero] using notified
    omega

theorem Looks.waiters_sublist {w : World V} {event : Event V} {handle : HandleId}
    {useStrategy : Strategy} {waitDuration : Duration} {now : TimePoint} {waiters : List Waiter}
    (looks : w.Looks event handle useStrategy waitDuration now waiters) :
    waiters.Sublist w.waiters := by
  cases looks with
  | get => exact List.Sublist.refl _
  | wake isWaiter => exact List.eraseIdx_sublist _ _

/-- A call which returns with an error leaves the cells to their owners. -/
theorem ClosedSince.returnTo {before w : World V} (closed : before.ClosedSince w)
    {waiters : List Waiter} (fewer : waiters.Sublist w.waiters) (handle : HandleId)
    {result : GetResult} (fails : result.Fails) :
    before.ClosedSince ({ w with waiters := waiters }.returnTo handle result) where
  disabled := closed.disabled
  notified := fun waiter member => closed.notified waiter (fewer.subset member)
  waiters := fewer.trans closed.waiters
  returned := by
    rcases closed.returned with ⟨results, returned, fail⟩
    refine ⟨results ++ [result], ?_, ?_⟩
    · rw [← List.append_assoc, ← returned]
      rfl
    · intro other member
      rcases List.mem_append.mp member with older | newest
      · exact fail other older
      · exact List.mem_singleton.mp newest ▸ fails
  used := closed.used

theorem ClosedSince.step {before w after : World V} {event : Event V}
    (closed : before.ClosedSince w) (stepped : w.Stepped event after) :
    before.ClosedSince after := by
  have active {Goal : Prop} (active : w.impl.disabled = false) : Goal := by
    rw [closed.disabled] at active
    contradiction
  cases stepped with
  | leased _ _ isActive => exact active isActive
  | blocked _ isActive => exact active isActive
  | refused looks => exact closed.returnTo looks.waiters_sublist _ ⟨Or.inl rfl, rfl⟩
  | timedOut isWaiter =>
      exact closed.returnTo (List.eraseIdx_sublist _ _) _ ⟨Or.inr rfl, rfl⟩
  | stored | storedOutside | threw | operated | finishedOutside | invalidated =>
      exact ⟨closed.disabled, closed.notified, closed.waiters, closed.returned, closed.used⟩
  | @tookBack handle now notified returning strategy cell waiters inCall used notifies =>
      rcases notifyOne_of_notified closed.notified notifies with rfl
      refine ⟨closed.disabled, closed.notified, closed.waiters, closed.returned, ?_⟩
      rw [Storage.takeBack_used]
      exact List.erase_sublist.trans closed.used
  | disabled =>
      rw [notifyAll_of_notified closed.notified]
      exact ⟨rfl, closed.notified, closed.waiters, closed.returned, closed.used⟩

/-- Whatever follows, a disabled pool stays closed. -/
theorem ClosedSince.run {before w final : World V} {condition : World V → Event V → Prop}
    (closed : before.ClosedSince w) (leads : (system V).LeadsTo condition w final) :
    before.ClosedSince final := by
  induction leads with
  | refl => exact closed
  | tail _ last ih =>
      rcases last with ⟨event, _, stepped⟩
      exact ih.step (stepped_of_step stepped).2

theorem closedSince_disable (w : World V) :
    ClosedSince { w with impl := { w.impl with disabled := true }, waiters := notifyAll w.waiters }
      { w with impl := { w.impl with disabled := true }, waiters := notifyAll w.waiters } where
  disabled := rfl
  notified := by simp [notifyAll]
  waiters := List.Sublist.refl _
  returned := ⟨[], (List.append_nil _).symm, by simp⟩
  used := List.Sublist.refl _

/-- A call which is blocked in a disabled pool returns when it has the mutex. -/
theorem leads_wake {w : World V} (isDefined : w.undefined = false)
    (disabled : w.impl.disabled = true) (now : TimePoint) {waiter : Waiter} {others : List Waiter}
    (isFirst : w.waiters = waiter :: others) :
    ∃ handle, (system V).LeadsTo (fun _ event => event.WakesAt now) w
      ({ w with waiters := others }.returnTo handle
        (getHandle waiter.useStrategy .disabled .singular)) := by
  rcases w.handles.exists_new with ⟨handle, isNew⟩
  have stepped : w.step (.wake 0 handle .noTimeout now) =
      some ({ w with waiters := others }.returnTo handle
        (getHandle waiter.useStrategy .disabled .singular)) := by
    simp [step, isDefined, act, isNew, isFirst, PoolImpl.resume, PoolImpl.attempt, disabled,
      conclude]
  have meets : (Event.wake 0 handle .noTimeout now : Event V).WakesAt now := rfl
  exact ⟨handle, System.LeadsTo.step meets stepped⟩

/-- One after the other, all blocked calls return. -/
theorem leads_return {w : World V} (isDefined : w.undefined = false)
    (disabled : w.impl.disabled = true) (now : TimePoint) :
    ∃ final results, (system V).LeadsTo (fun _ event => event.WakesAt now) w final ∧
      final.waiters = [] ∧ final.returned = w.returned ++ results ∧
      results.length = w.waiters.length ∧ ∀ result ∈ results, result.error = .disabled := by
  induction waiting : w.waiters generalizing w with
  | nil =>
      exact ⟨w, [], Relation.ReflTransGen.refl, waiting, (List.append_nil _).symm, rfl, by simp⟩
  | cons waiter others ih =>
      rcases leads_wake isDefined disabled now waiting with ⟨handle, woken⟩
      rcases ih (w := { w with waiters := others }.returnTo handle
        (getHandle waiter.useStrategy .disabled .singular)) isDefined disabled rfl with
        ⟨final, results, leads, nobody, returned, length, refused⟩
      refine ⟨final, getHandle waiter.useStrategy .disabled .singular :: results,
        woken.trans leads, nobody, ?_, ?_, ?_⟩
      · rw [returned]
        exact List.append_assoc _ _ _
      · rw [List.length_cons, length, List.length_cons]
      · intro result member
        rcases List.mem_cons.mp member with rfl | later
        · rfl
        · exact refused result later

/--
After `disable` no call of `get` blocks again or is granted a cell, whatever clients do: all
that it returns are errors, all blocked calls are notified, and cells only come back. The
calls which were blocked can all return when they have the mutex, with `disabled`, whatever the
clock reads.
-/
theorem disable_ends_all_calls {w after : World V} (stepped : w.step .disable = some after) :
    (∀ final, (system V).LeadsTo (fun _ _ => True) after final →
      final.impl.disabled = true ∧
      (∀ waiter ∈ final.waiters, waiter.notified = true) ∧
      final.waiters.Sublist after.waiters ∧
      (∃ results, final.returned = w.returned ++ results ∧
        ∀ result ∈ results, result.Fails) ∧
      final.impl.storage.used.Sublist w.impl.storage.used) ∧
    ∀ now, ∃ final results, (system V).LeadsTo (fun _ event => event.WakesAt now) after final ∧
      final.waiters = [] ∧ final.returned = w.returned ++ results ∧
      results.length = w.waiters.length ∧ ∀ result ∈ results, result.error = .disabled := by
  rcases stepped_of_step stepped with ⟨isDefined, effect⟩
  cases effect with
  | leased looks | refused looks | blocked looks => cases looks
  | disabled =>
      constructor
      · intro final leads
        have closed := (closedSince_disable w).run leads
        exact ⟨closed.disabled, closed.notified, closed.waiters, closed.returned, closed.used⟩
      · intro now
        rcases leads_return (w := { w with
            impl := { w.impl with disabled := true }
            waiters := notifyAll w.waiters }) isDefined rfl now with
          ⟨final, results, leads, nobody, returned, length, refused⟩
        refine ⟨final, results, leads, nobody, returned, ?_, refused⟩
        rw [length, notifyAll, List.length_map]

/-- One client holds the cell, another one is blocked when the pool is disabled. -/
theorem disable_ends_all_calls_blocked :
    ∃ w after, (system ℕ).execute oneCell
        [.get 0 .recycle Ticks.zero (Ticks.clamp 10),
          .get 1 .waste (Ticks.clamp 5) (Ticks.clamp 11)] = some w ∧
      w.step .disable = some after ∧ after.waiters = [⟨.waste, Ticks.clamp 5, true⟩] ∧
      ∃ final results,
        (system ℕ).LeadsTo (fun _ event => event.WakesAt (Ticks.clamp 14)) after final ∧
        final.waiters = [] ∧ final.returned = w.returned ++ results ∧ results.length = 1 := by
  have ran : ((system ℕ).execute oneCell [.get 0 .recycle Ticks.zero (Ticks.clamp 10),
    .get 1 .waste (Ticks.clamp 5) (Ticks.clamp 11)]).isSome := rfl
  have stepped : ((((system ℕ).execute oneCell [.get 0 .recycle Ticks.zero (Ticks.clamp 10),
    .get 1 .waste (Ticks.clamp 5) (Ticks.clamp 11)]).get ran).step .disable).isSome := rfl
  rcases (disable_ends_all_calls (Option.some_get stepped).symm).2 (Ticks.clamp 14) with
    ⟨final, results, leads, nobody, returned, length, _⟩
  exact ⟨_, _, (Option.some_get ran).symm, (Option.some_get stepped).symm, rfl, final, results,
    leads, nobody, returned, length⟩

end World

end ResourcePool.Sync
