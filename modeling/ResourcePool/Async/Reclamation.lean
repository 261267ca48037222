import ResourcePool.Async.Lifetime

/-!
# Every implementation can be reclaimed

A queued request keeps its own queue alive, so that an implementation may outlive its pool: a
pool which is assigned to does not disable its implementation, and a late push is accepted by
a disabled one. The timers then break the circle. Once the requests have completed, what is
left are the handles and the pools, which give up their pointers when they are destroyed.
-/

namespace ResourcePool.Async

open Container Lifetime Transition

variable {V IoContext : Type} [DecidableEq IoContext]

/-- The steps in which nothing is asked of the pool: those which no client begins, and those of
the destruction of a handle. -/
def Event.givesUp : Event V IoContext → Bool
  | .push .. | .run .. | .fire .. | .deliver .. | .finish .. | .operate (.release _)
  | .operate (.destroy _) => true
  | .get .. | .reset .. | .operate _ | .invalidate | .disable => false

def SharedEvent.givesUp : SharedEvent V IoContext → Bool
  | .world event => event.givesUp
  | .destroy => true
  | .copy | .reset => false

def SharedEvent.ReadsAt (now : TimePoint) : SharedEvent V IoContext → Prop
  | .world event => event.ReadsAt now
  | .copy | .reset | .destroy => True

omit [DecidableEq IoContext] in
theorem Event.givesUp_of_isOwn {event : Event V IoContext} (isOwn : event.isOwn = true) :
    event.givesUp = true := by
  cases event <;> first | rfl | contradiction

omit [DecidableEq IoContext] in
theorem Event.not_throughOwner {event : Event V IoContext} (givesUp : event.givesUp = true) :
    event.throughOwner = false := by
  cases event <;> first | rfl | contradiction

namespace World

abbrev LeadsGivingUp (w : World V IoContext) (now : TimePoint) (after : World V IoContext) :
    Prop :=
  (system V IoContext).LeadsTo (fun _ event => event.givesUp = true ∧ event.ReadsAt now) w after

/-- A pointer of a handle was given up, with nothing under way before and after. -/
def GivenUp (w after : World V IoContext) : Prop :=
  after.Settled ∧ after.handles.attached < w.handles.attached

omit [DecidableEq IoContext] in
theorem liveHandlers_of_settled {w : World V IoContext} (settled : w.Settled)
    (attached : w.handles.attached = 0) : w.liveHandlers = 0 := by
  rcases settled with ⟨unlocked, contents, submitted, _⟩
  simp [liveHandlers, handlers, unlocked, contents, submitted, attached]

/-- An unusable handle is destroyed. -/
theorem leads_destroy {w : World V IoContext} (isDefined : w.undefined = false)
    (settled : w.Settled) (now : TimePoint) {handle : HandleId} {ready : Handle Unit}
    (found : w.handles.lookup handle = some ⟨ready, none⟩) (unusable : ready.unusable = true)
    (isAttached : ready.poolImpl = some ()) :
    ∃ after, w.LeadsGivingUp now after ∧ w.GivenUp after := by
  have acted : w.act (.operate (.destroy handle)) =
      some { w with handles := w.handles.erase handle } := by
    simp [act, Handles.act, Handles.ready?_eq_some.mpr found, unusable]
  refine ⟨_, leadsTo_of_act acted isDefined ⟨rfl, trivial⟩, ?_, ?_⟩
  · rcases settled with ⟨unlocked, contents, submitted, returning⟩
    refine ⟨unlocked, contents, submitted, ?_⟩
    exact List.eq_nil_of_sublist_nil (returning ▸ held_erase_sublist HandleState.returns)
  · have erased := count_held_erase Handles.poolOf found ()
    rw [← Handles.attached_eq_count, ← Handles.attached_eq_count] at erased
    simp only [Handles.poolOf, isAttached, Option.toList_some, List.count_singleton_self] at erased
    exact Nat.lt_of_succ_le (Nat.le_of_eq erased)

/-- A usable handle gives its cell back, for which no request is left, and is destroyed. -/
theorem leads_release {w : World V IoContext} (reached : (system V IoContext).Reachable w)
    (settled : w.Settled) (now : TimePoint) {handle : HandleId} {ready : Handle Unit}
    {resourceIt : CellIterator} (found : w.handles.lookup handle = some ⟨ready, none⟩)
    (holds : ready.resourceIt = some resourceIt) (isAttached : ready.poolImpl = some ()) :
    ∃ after, w.LeadsGivingUp now after ∧ w.GivenUp after := by
  rcases settled with ⟨noneUnlocked, noneQueued, noneSubmitted, noneReturning⟩
  let call : PoolCall Unit := ⟨ready.poolImpl, ready.useStrategy, resourceIt⟩
  have released : w.act (.operate (.release handle)) =
      some (w.setHandle handle ⟨ready, some call⟩) := by
    simp [act, Handles.act, Handles.ready?_eq_some.mpr found, Handle.ownCall, holds, setHandle,
      call]
  have isDefined := (owned_of_reachable reached).isDefined
  have reachedCall := reached.next (step_of_act isDefined released)
  have owned := owned_of_reachable reachedCall
  have inCall : (w.setHandle handle ⟨ready, some call⟩).handles.lookup handle =
      some ⟨ready, some call⟩ := AList.lookup_insert w.handles
  rcases owned.exists_finish now inCall with ⟨last, finished, _, isReturned, others⟩
  rcases others noneQueued with ⟨unlocked, callbacks, submitted⟩
  have still := (owned_of_reachable
    (reachedCall.next (step_of_act owned.isDefined finished))).isDefined
  have handles : last.handles = w.handles.insert handle ⟨ready.returned, none⟩ :=
    isReturned.trans (AList.insert_insert w.handles)
  have isSettled : last.Settled := by
    refine ⟨unlocked.trans noneUnlocked, ?_, submitted.trans noneSubmitted, ?_⟩
    · rw [callbacks]
      exact noneQueued
    · rw [handles]
      exact Handles.returning_insert_ready noneReturning handle ready.returned
  have emptied : last.handles.lookup handle = some ⟨ready.returned, none⟩ :=
    handles ▸ AList.lookup_insert w.handles
  rcases leads_destroy still isSettled now emptied rfl isAttached with ⟨after, leads, givenUp⟩
  have attached : last.handles.attached = w.handles.attached :=
    handles ▸ Handles.attached_replace ⟨ready.returned, none⟩ found rfl
  refine ⟨after, ?_, givenUp.1, attached ▸ givenUp.2⟩
  exact ((leadsTo_of_act released isDefined ⟨rfl, trivial⟩).trans
    (leadsTo_of_act finished owned.isDefined ⟨rfl, rfl⟩)).trans leads

/-- As long as a handle has a pointer, one can be given up. -/
theorem leads_given_up {w : World V IoContext} (reached : (system V IoContext).Reachable w)
    (settled : w.Settled) (now : TimePoint) (attached : w.handles.attached ≠ 0) :
    ∃ after, w.LeadsGivingUp now after ∧ w.GivenUp after := by
  have owned := owned_of_reachable reached
  rcases Handles.exists_attached attached with ⟨handle, ⟨ready, call⟩, found, isAttached⟩
  obtain rfl : call = none := owned.sound.call_of_returning settled.2.2.2 found
  cases holds : ready.resourceIt with
  | some resourceIt => exact leads_release reached settled now found holds isAttached
  | none =>
      have unusable : ready.unusable = true := by simp [Handle.unusable, holds]
      exact leads_destroy owned.isDefined settled now found unusable isAttached

end World

namespace Shared

abbrev LeadsGivingUp (now : TimePoint) (pair final : Shared V IoContext × Option ℕ) : Prop :=
  (countedSystem V IoContext).LeadsTo (fun _ event => event.givesUp = true ∧ event.ReadsAt now)
    pair final

theorem exists_counted_step {s after : Shared V IoContext} {event : SharedEvent V IoContext}
    (stepped : (system V IoContext).step s event = some after) (count : Option ℕ)
    (locks : (sharing V IoContext).weakly event = true → count ≠ some 0) :
    ∃ later, (countedSystem V IoContext).step (s, count) event = some (after, later) :=
  Sharing.exists_counted_step stepped locks

theorem reachable_of_leads {pair final : Shared V IoContext × Option ℕ} {now : TimePoint}
    (reached : (countedSystem V IoContext).Reachable pair) (leads : LeadsGivingUp now pair final) :
    (countedSystem V IoContext).Reachable final :=
  System.ReachableVia.leadsTo reached (fun _ _ _ => trivial) leads

/-- What the world of a shared implementation can do by itself it does as long as the
implementation is not destroyed. -/
theorem leads_world {w after : World V IoContext} {now : TimePoint} (owners : ℕ)
    (count : Option ℕ) (leads : w.LeadsGivingUp now after) :
    ∃ s later, LeadsGivingUp now (⟨w, owners⟩, count) (s, later) ∧
      (later = some 0 ∨ s = ⟨after, owners⟩) := by
  induction leads with
  | refl => exact ⟨_, _, .refl, Or.inr rfl⟩
  | @tail before next _ last ih =>
      rcases last with ⟨event, ⟨givesUp, readsAt⟩, moved⟩
      rcases ih with ⟨s, later, leads, destroyed | rfl⟩
      · exact ⟨s, later, leads, Or.inl destroyed⟩
      · by_cases destroyed : later = some 0
        · exact ⟨_, later, leads, Or.inl destroyed⟩
        · have stepped : (system V IoContext).step ⟨before, owners⟩ (.world event) =
              some ⟨next, owners⟩ := by
            change (if event.throughOwner = true ∧ owners = 0 then none
              else (before.step event).map fun world => _) = _
            have moved : before.step event = some next := moved
            simp [Event.not_throughOwner givesUp, moved]
          rcases exists_counted_step stepped later (fun _ => destroyed) with ⟨further, counted⟩
          exact ⟨_, further,
            Relation.ReflTransGen.tail leads ⟨.world event, ⟨givesUp, readsAt⟩, counted⟩,
            Or.inr rfl⟩

/-- The implementation is destroyed, or nothing is under way and no handle has a pointer. -/
def Abandoned (pair : Shared V IoContext × Option ℕ) : Prop :=
  pair.2 = some 0 ∨ pair.1.world.Settled ∧ pair.1.world.handles.attached = 0

theorem leads_settled {pair : Shared V IoContext × Option ℕ}
    (reached : (countedSystem V IoContext).Reachable pair) (now : TimePoint) :
    ∃ final, LeadsGivingUp now pair final ∧ (final.2 = some 0 ∨ final.1.world.Settled) := by
  apply System.leadsTo_of_variant
    (motive := fun pair => (countedSystem V IoContext).Reachable pair)
    (fun pair => pair.1.world.remaining) ?_ reached
  rintro ⟨⟨w, owners⟩, count⟩ isReached unsettled
  rw [not_or] at unsettled
  have isWorld : (World.system V IoContext).Reachable w :=
    world_reachable (Sharing.reachable_of_counted isReached)
  rcases World.leads_closer isWorld now unsettled.2 with ⟨after, leads, fewer⟩
  have givingUp : w.LeadsGivingUp now after :=
    leads.mono fun _ _ own => ⟨Event.givesUp_of_isOwn own.1, own.2⟩
  rcases leads_world owners count givingUp with ⟨s, later, continues, destroyed | rfl⟩
  · exact ⟨_, continues, Or.inl (Or.inl destroyed)⟩
  · exact ⟨_, continues, Or.inr ⟨reachable_of_leads isReached continues, fewer⟩⟩

theorem leads_abandoned {pair : Shared V IoContext × Option ℕ}
    (reached : (countedSystem V IoContext).Reachable pair) (now : TimePoint) :
    ∃ final, LeadsGivingUp now pair final ∧ Abandoned final := by
  rcases leads_settled reached now with ⟨first, leads, destroyed | settled⟩
  · exact ⟨first, leads, Or.inl destroyed⟩
  · have continued : ∃ final, LeadsGivingUp now first final ∧ Abandoned final := by
      apply System.leadsTo_of_variant
        (motive := fun pair : Shared V IoContext × Option ℕ =>
          (countedSystem V IoContext).Reachable pair ∧ pair.1.world.Settled)
        (fun pair => pair.1.world.handles.attached) ?_ ⟨reachable_of_leads reached leads, settled⟩
      rintro ⟨⟨w, owners⟩, count⟩ ⟨isReached, isSettled⟩ kept
      have isWorld : (World.system V IoContext).Reachable w :=
        world_reachable (Sharing.reachable_of_counted isReached)
      have attached : w.handles.attached ≠ 0 := fun nothing => kept (Or.inr ⟨isSettled, nothing⟩)
      rcases World.leads_given_up isWorld isSettled now attached with
        ⟨after, givingUp, still, fewer⟩
      rcases leads_world owners count givingUp with ⟨s, later, continues, destroyed | rfl⟩
      · exact ⟨_, continues, Or.inl (Or.inl destroyed)⟩
      · exact ⟨_, continues,
          Or.inr ⟨⟨reachable_of_leads isReached continues, still⟩, fewer⟩⟩
    rcases continued with ⟨final, continues, abandoned⟩
    exact ⟨final, Relation.ReflTransGen.trans leads continues, abandoned⟩

/-- The destruction of a pool whose queue is empty leaves nothing under way. -/
theorem step_destroy {s : Shared V IoContext} {count : Option ℕ}
    (reached : (countedSystem V IoContext).Reachable (s, count)) (settled : s.world.Settled)
    (attached : s.world.handles.attached = 0) (owned : s.owners ≠ 0) :
    ∃ after later, (countedSystem V IoContext).step (s, count) .destroy = some (after, later) ∧
      after.world.Settled ∧ after.world.handles.attached = 0 ∧ after.owners < s.owners := by
  have isWorld : (World.system V IoContext).Reachable s.world :=
    world_reachable (Sharing.reachable_of_counted reached)
  have isDefined := (World.owned_of_reachable isWorld).isDefined
  have acted : ∃ world, s.world.act .disable = some world := ⟨_, rfl⟩
  rcases acted with ⟨world, acted⟩
  have moved : s.world.step .disable = some world := World.step_of_act isDefined acted
  have stepped : (system V IoContext).step s .destroy = some ⟨world, s.owners - 1⟩ := by
    simp [system, step, owned, moved]
  rcases exists_counted_step stepped count
    (fun weak => absurd weak Bool.false_ne_true) with ⟨later, counted⟩
  refine ⟨_, later, counted, ?_⟩
  cases World.stepped_of_act acted with
  | disabled emptied capacity =>
      rcases settled with ⟨unlocked, contents, submitted, returning⟩
      refine ⟨⟨unlocked, emptied, ?_, returning⟩, attached, by dsimp only; omega⟩
      simp only [World.submit, contents, submitted, List.map_nil, List.append_nil]

/--
From every reachable state, with no request made and no value stored any more, the
implementation can come to be destroyed: what is under way ends, the handles are destroyed, and
so are the pools. It makes no difference whether it was disabled, what is queued in it, or what
the clock reads meanwhile.
-/
theorem implementation_can_be_reclaimed {s : Shared V IoContext} {count : Option ℕ}
    (reached : (countedSystem V IoContext).Reachable (s, count)) (now : TimePoint) :
    ∃ final, LeadsGivingUp now (s, count) (final, some 0) := by
  rcases leads_abandoned reached now with ⟨⟨first, later⟩, leads, destroyed | abandoned⟩
  · change later = some 0 at destroyed
    exact ⟨first, destroyed ▸ leads⟩
  · have continued : ∃ final, LeadsGivingUp now (first, later) final ∧ final.2 = some 0 := by
      apply System.leadsTo_of_variant
        (motive := fun pair : Shared V IoContext × Option ℕ =>
          (countedSystem V IoContext).Reachable pair ∧ pair.1.world.Settled ∧
            pair.1.world.handles.attached = 0)
        (fun pair => pair.1.owners) ?_ ⟨reachable_of_leads reached leads, abandoned⟩
      rintro ⟨last, lastCount⟩ ⟨isReached, settled, attached⟩ alive
      have owned : last.owners ≠ 0 := by
        intro nobody
        apply alive
        change lastCount = some 0
        rw [count_eq isReached, nobody, World.liveHandlers_of_settled settled attached]
      rcases step_destroy isReached settled attached owned with
        ⟨after, next, stepped, stillSettled, stillNone, fewer⟩
      have meets : (SharedEvent.destroy : SharedEvent V IoContext).givesUp = true ∧
          (SharedEvent.destroy : SharedEvent V IoContext).ReadsAt now := ⟨rfl, trivial⟩
      exact ⟨_, System.LeadsTo.step meets stepped,
        Or.inr ⟨⟨isReached.next stepped, stillSettled, stillNone⟩, fewer⟩⟩
    rcases continued with ⟨⟨final, last⟩, continues, destroyed⟩
    change last = some 0 at destroyed
    exact ⟨final, destroyed ▸ Relation.ReflTransGen.trans leads continues⟩

/-- A request is pushed while its pool is being assigned to. -/
def abandonedRun : List (SharedEvent ℕ Bool) :=
  [.world (.get false .recycle Ticks.zero (Ticks.clamp 10)), .world (.run 0 0),
    .world (.get true .waste (Ticks.clamp 5) (Ticks.clamp 11)), .reset,
    .world (.push 0 (Ticks.clamp 12))]

/-- The pool is gone, without a call of `disable`, and a request is queued. -/
theorem implementation_can_be_reclaimed_abandoned :
    ∃ s count, (countedSystem ℕ Bool).execute (⟨World.oneCell, 1⟩, some 1) abandonedRun =
        some (s, count) ∧
      s.owners = 0 ∧ count = some 2 ∧ s.world.impl.disabled = false ∧
      s.world.impl.callbacks.contents.length = 1 ∧
      ∃ final, LeadsGivingUp (Ticks.clamp 12) (s, count) (final, some 0) := by
  have ran : ((countedSystem ℕ Bool).execute (⟨World.oneCell, 1⟩, some 1)
    abandonedRun).isSome := rfl
  have reached := System.execute_reachable oneCell_begins (Option.some_get ran).symm
  exact ⟨_, _, (Option.some_get ran).symm, rfl, rfl, rfl, rfl,
    implementation_can_be_reclaimed reached (Ticks.clamp 12)⟩

end Shared

end ResourcePool.Async
