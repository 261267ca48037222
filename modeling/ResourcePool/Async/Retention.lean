import ResourcePool.Async.StorageActions

/-!
# Values are dropped only for a reason

`lease` clears the mark of the cell which it grants, but `recycle` and `waste` hand a cell
over as it is marked. The next holder of a marked cell then loses what it stores, although
the pool was invalidated before the cell was granted to it. In the runs in which no marked
cell is handed over, every value which is dropped is dropped for a reason.
-/

namespace ResourcePool.Async.World

open Storage

variable {V IoContext : Type} [DecidableEq IoContext]

/-- No marked cell is handed over to a queued request. -/
def HandsOverUnmarked (w : World V IoContext) : Event V IoContext → Prop
  | .finish handle _ =>
      ∀ cell ∈ (w.handles.lookup handle).bind HandleState.returns,
        w.impl.callbacks.contents ≠ [] → (w.impl.storage.node cell).wasteOnRecycle = false
  | _ => True

instance : DecidableRel (HandsOverUnmarked : World V IoContext → Event V IoContext → Prop)
  | w, .finish handle _ =>
      inferInstanceAs (Decidable (∀ cell ∈ (w.handles.lookup handle).bind HandleState.returns,
        w.impl.callbacks.contents ≠ [] → (w.impl.storage.node cell).wasteOnRecycle = false))
  | _, .get .. | _, .push .. | _, .run .. | _, .reset .. | _, .operate _ | _, .invalidate
  | _, .disable | _, .fire .. | _, .deliver _ => .isTrue trivial

omit [DecidableEq IoContext] in
theorem handsOverUnmarked_action (w : World V IoContext) (event : Event V IoContext)
    (action : StorageAction V) (unmarked : w.HandsOverUnmarked event)
    (acts : w.storageAction event = some action) :
    w.impl.storage.HandsOverUnmarked action := by
  cases event with
  | finish handle now =>
      simp only [storageAction] at acts
      split at acts
      · next returning strategy cell inCall =>
          simp only [Option.ite_none_right_eq_some, Option.some.injEq] at acts
          rcases acts with ⟨used, rfl⟩
          simp only [returnAction]
          split
          · cases strategy <;> trivial
          · next waiting =>
              have isUnmarked := unmarked cell (by simp [inCall, HandleState.returns, cellOf])
                waiting
              cases strategy <;> exact isUnmarked
      · contradiction
  | get ioContext useStrategy waitDuration now =>
      simp only [storageAction, Option.ite_none_left_eq_some, Option.some.injEq] at acts
      rw [← acts.2]
      trivial
  | reset handle value now =>
      simp only [storageAction] at acts
      split at acts
      · simp only [Option.ite_none_right_eq_some, Option.some.injEq] at acts
        rw [← acts.2]
        trivial
      · contradiction
  | invalidate =>
      simp only [storageAction, Option.some.injEq] at acts
      rw [← acts]
      trivial
  | push | run | operate | disable | fire | deliver => contradiction

/--
In a run in which no marked cell is handed over, a value is dropped only for one of the
reasons of `DropReason`. A value stored under a lease which was granted after the last
invalidation is kept if it is recycled within its lifespan.
-/
theorem drops_only_for_reason {w : World V IoContext} {history : History}
    (reached : (trackedSystem V IoContext).ReachableVia
      (fun pair event => pair.1.HandsOverUnmarked event) (w, history)) :
    (∀ event after cell, w.step event = some after →
      w.impl.storage.Drops after.impl.storage cell →
        ∃ action, w.storageAction event = some action ∧
          w.impl.storage.DropReason history action cell) ∧
    (∀ handle now after returning cell, w.step (.finish handle now) = some after →
      w.handles.lookup handle = some ⟨returning, some ⟨some (), some .recycle, .node cell⟩⟩ →
      history.invalidatedSinceGrant cell = false →
      now < TimeTraits.add (history.storedAt cell) w.impl.storage.lifespan →
        (after.impl.storage.node cell).value = (w.impl.storage.node cell).value) := by
  rcases tracked_and_grantsAgree_of_pool handsOverUnmarked_action reached with ⟨tracked, agree⟩
  change w.impl.storage.Tracked history at tracked
  change w.impl.storage.GrantsAgree history at agree
  constructor
  · intro event after cell stepped drops
    rcases (stepped_of_step stepped).2.storage with ⟨action, acts, performed⟩ | ⟨_, unchanged⟩
    · exact ⟨action, acts, tracked.dropReason agree performed drops⟩
    · rcases drops with ⟨hasValue, gone⟩
      rw [unchanged] at gone
      simp [gone] at hasValue
  · intro handle now after returning cell stepped inCall granted living
    rcases (stepped_of_step stepped).2.storage with ⟨action, acts, performed⟩ | ⟨_, unchanged⟩
    · simp only [storageAction, inCall, Option.ite_none_right_eq_some, Option.some.injEq] at acts
      have returns : action = .recycle cell now ∨ action = .handOverRecycled cell now := by
        rw [← acts.2, returnAction]
        split
        · exact Or.inl rfl
        · exact Or.inr rfl
      exact tracked.kept agree returns performed granted living
    · rw [unchanged]

theorem oneCell_begins :
    (trackedSystem ℕ Bool).Initial (oneCell, History.fresh Ticks.zero) :=
  ⟨oneCell_initial, Ticks.zero, .empty 1 Ticks.max Ticks.max Ticks.zero, rfl⟩

/-- The client which holds the cell stores a value, and recycles it while a request is
queued. -/
def keepingRun : List (Event ℕ Bool) :=
  [.get false .recycle Ticks.zero (Ticks.clamp 10), .run 0 0, .reset 0 7 (Ticks.clamp 11),
    .get true .recycle (Ticks.clamp 5) (Ticks.clamp 12), .push 0 (Ticks.clamp 12),
    .operate (.giveBack 0 .recycle)]

theorem drops_only_for_reason_kept :
    ∃ w after, (system ℕ Bool).execute oneCell keepingRun = some w ∧
      w.step (.finish 0 (Ticks.clamp 13)) = some after ∧
      (after.impl.storage.node 0).value = (w.impl.storage.node 0).value ∧
      (w.impl.storage.node 0).value = some 7 := by
  have ran : ((trackedSystem ℕ Bool).execute (oneCell, History.fresh Ticks.zero)
    keepingRun).isSome := rfl
  have meets : (trackedSystem ℕ Bool).EachStep
      (fun pair event => pair.1.HandsOverUnmarked event)
      (oneCell, History.fresh Ticks.zero) keepingRun := by
    decide
  have reached := (Transition.System.ReachableVia.start oneCell_begins).execute meets
    (Option.some_get ran).symm
  exact ⟨_, _, rfl, rfl,
    (drops_only_for_reason reached).2 0 (Ticks.clamp 13) _ _ 0 rfl rfl rfl (by decide), rfl⟩

/-- The cell is marked, handed over to another client, and recycled by this one after it
has stored a value. -/
def markedHandOverRun : List (Event ℕ Bool) :=
  [.get false .recycle Ticks.zero (Ticks.clamp 10), .run 0 0, .invalidate,
    .get true .recycle (Ticks.clamp 5) (Ticks.clamp 11), .push 0 (Ticks.clamp 11),
    .operate (.giveBack 0 .recycle), .finish 0 (Ticks.clamp 12), .run 0 1,
    .reset 1 7 (Ticks.clamp 20), .operate (.giveBack 1 .recycle)]

/-- The value is dropped without a reason. -/
theorem drops_without_reason :
    ∃ w history after,
      (trackedSystem ℕ Bool).execute (oneCell, History.fresh Ticks.zero) markedHandOverRun =
        some (w, history) ∧
      (trackedSystem ℕ Bool).Reachable (w, history) ∧
      w.step (.finish 1 (Ticks.clamp 21)) = some after ∧
      w.impl.storage.Drops after.impl.storage 0 ∧
      history.invalidatedSinceGrant 0 = false ∧
      ¬∃ action, w.storageAction (.finish 1 (Ticks.clamp 21)) = some action ∧
        w.impl.storage.DropReason history action 0 := by
  have ran : ((trackedSystem ℕ Bool).execute (oneCell, History.fresh Ticks.zero)
    markedHandOverRun).isSome := rfl
  have reached := Transition.System.execute_reachable oneCell_begins (Option.some_get ran).symm
  refine ⟨_, _, _, (Option.some_get ran).symm, reached, rfl, ⟨rfl, rfl⟩, rfl, ?_⟩
  rintro ⟨action, acts, reason⟩
  have equal : .recycle 0 (Ticks.clamp 21) = action := Option.some.inj acts
  subst equal
  exact not_dropReason_of_return List.mem_cons_self (Or.inl rfl) rfl (by decide) reason

end ResourcePool.Async.World
