import ResourcePool.Async.Ownership

/-!
# Queued requests and free cells

A request belongs into the queue only while no cell is free. `get` looks at the storage
under the mutex of the pool, but pushes after it has released this mutex. A cell which is
given back in between finds an empty queue and is put away, and the request is then queued
beside it. No other step can lead there: `WaitsOnlyWhenFull` holds throughout a run just if
no push of the run is taken beside a free cell.
-/

namespace ResourcePool

theorem Storage.handOn_noFreeCell {V : Type} {s : Storage V} (strategy : Strategy)
    (cell : CellId) (now : TimePoint) (full : s.NoFreeCell) :
    (s.handOn strategy cell now).NoFreeCell := by
  cases strategy with
  | recycle =>
      simp only [handOn, Storage.handOver]
      split
      · exact full
      · exact full
  | waste => exact full

theorem Storage.invalidate_noFreeCell {V : Type} {s : Storage V} (full : s.NoFreeCell) :
    s.invalidate.NoFreeCell := by
  refine ⟨rfl, ?_⟩
  change s.wasted ++ s.available = []
  rw [full.1, full.2, List.append_nil]

theorem Storage.not_noFreeCell_of_lease {V : Type} {s : Storage V} {now : TimePoint}
    {cell : CellId} (leased : (s.lease now).1 = some cell) : ¬s.NoFreeCell := by
  intro full
  simp [Storage.lease_of_noFreeCell now full] at leased

namespace Async.World

variable {V IoContext : Type} [DecidableEq IoContext]

/-- While a request is queued all cells are used. -/
def WaitsOnlyWhenFull (w : World V IoContext) : Prop :=
  w.impl.callbacks.contents ≠ [] →
    w.impl.storage.available = [] ∧ w.impl.storage.wasted = [] ∧
      ∀ cell < w.impl.capacity, cell ∈ w.impl.storage.used

/-- A push which is accepted is taken while no cell is free. -/
def PushesWhenFull (w : World V IoContext) : Event V IoContext → Prop
  | .push _ _ =>
      w.impl.callbacks.contents.length < w.impl.callbacks.capacity → w.impl.storage.NoFreeCell
  | _ => True

instance : DecidableRel (PushesWhenFull : World V IoContext → Event V IoContext → Prop)
  | w, .push _ _ =>
      inferInstanceAs (Decidable (w.impl.callbacks.contents.length < w.impl.callbacks.capacity →
        w.impl.storage.available = [] ∧ w.impl.storage.wasted = []))
  | _, .get .. | _, .run .. | _, .reset .. | _, .operate _ | _, .finish .. | _, .invalidate
  | _, .disable | _, .fire .. | _, .deliver _ => .isTrue trivial

theorem waitsOnlyWhenFull_iff {w : World V IoContext}
    (reached : (system V IoContext).Reachable w) :
    w.WaitsOnlyWhenFull ↔ (w.impl.callbacks.contents ≠ [] → w.impl.storage.NoFreeCell) := by
  apply imp_congr_right fun _ => ⟨fun full => ⟨full.1, full.2.1⟩, ?_⟩
  rintro ⟨available, wasted⟩
  refine ⟨available, wasted, ?_⟩
  intro cell inRange
  have member := (owned_of_reachable reached).cells.mem_iff.mpr (List.mem_range.mpr inRange)
  simpa [Lists.cells, available, wasted] using member

omit [DecidableEq IoContext] in
/-- Only a push can leave a request beside a free cell. -/
theorem noFreeCell_step {w after : World V IoContext} {event : Event V IoContext}
    (full : w.impl.callbacks.contents ≠ [] → w.impl.storage.NoFreeCell)
    (pushes : w.PushesWhenFull event) (stepped : w.Stepped event after)
    (waiting : after.impl.callbacks.contents ≠ []) : after.impl.storage.NoFreeCell := by
  cases stepped with
  | leased active isLeased =>
      exact absurd (full waiting) (Storage.not_noFreeCell_of_lease isLeased)
  | queued isGet room appended capacity => exact pushes room
  | refused | unlocked | overflowed | ran | ranMovedFrom | stored | storedOutside | threw
  | operated | finishedOutside => exact full waiting
  | tookBack inCall used nothingQueued => exact absurd nothingQueued waiting
  | @handedOn _ now _ strategy cell oldest callbacks inCall used front capacity =>
      apply Storage.handOn_noFreeCell strategy cell now (full ?_)
      simp [front]
  | invalidated => exact Storage.invalidate_noFreeCell (full waiting)
  | disabled emptied capacity => exact absurd emptied waiting
  | fired same capacity => exact full fun empty => waiting (same.trans empty)
  | delivered expired split sublist capacity =>
      apply full fun empty => waiting ?_
      rw [empty] at sublist
      exact List.sublist_nil.mp sublist

omit [DecidableEq IoContext] in
theorem pushesWhenFull_of_step {w after : World V IoContext} {event : Event V IoContext}
    (full : after.impl.callbacks.contents ≠ [] → after.impl.storage.NoFreeCell)
    (stepped : w.Stepped event after) : w.PushesWhenFull event := by
  cases stepped with
  | queued isGet room appended capacity =>
      intro _
      apply full
      simp [appended]
  | overflowed isGet overflows => exact fun room => absurd room (not_lt_of_ge overflows)
  | leased | refused | unlocked | ran | ranMovedFrom | stored | storedOutside | threw
  | operated | tookBack | handedOn | finishedOutside | invalidated | disabled | fired
  | delivered => trivial

/--
No request is queued beside a free cell in any state of a run just if every push of the
run which is accepted is taken while no cell is free.
-/
theorem waitsOnlyWhenFull_iff_pushesWhenFull {w final : World V IoContext}
    {events : List (Event V IoContext)} (isInitial : (system V IoContext).Initial w)
    (ran : (system V IoContext).execute w events = some final) :
    (system V IoContext).Throughout WaitsOnlyWhenFull w events ↔
      (system V IoContext).EachStep PushesWhenFull w events := by
  have reached : (system V IoContext).Reachable w := Transition.System.Reachable.start isInitial
  apply Transition.System.throughout_iff_eachStep
    (fun _ _ _ known stepped => Transition.System.Reachable.next known stepped) ?_ ?_ reached
    ?_ ran
  · intro before event after known holds pushes stepped
    rw [waitsOnlyWhenFull_iff known] at holds
    rw [waitsOnlyWhenFull_iff (known.next stepped)]
    exact noFreeCell_step holds pushes (stepped_of_step stepped).2
  · intro before event after known holds stepped holdsAfter
    rw [waitsOnlyWhenFull_iff (known.next stepped)] at holdsAfter
    exact pushesWhenFull_of_step holdsAfter (stepped_of_step stepped).2
  · rcases isInitial with ⟨impl, isConstructed, rfl⟩
    intro waiting
    exact absurd isConstructed.spec.2.2.2.2.1 waiting

theorem waitsOnlyWhenFull_handed_over :
    (system ℕ Bool).Throughout WaitsOnlyWhenFull oneCell handOverRun := by
  have ran : ((system ℕ Bool).execute oneCell handOverRun).isSome := rfl
  exact (waitsOnlyWhenFull_iff_pushesWhenFull oneCell_initial (Option.some_get ran).symm).mpr
    (by decide)

/-- The only cell comes back between the two sections of the `get` of another client. -/
def strandingRun : List (Event ℕ Bool) :=
  [.get false .recycle Ticks.zero (Ticks.clamp 10), .run 0 0,
    .get true .waste (Ticks.clamp 5) (Ticks.clamp 11),
    .operate (.giveBack 0 .recycle), .finish 0 (Ticks.clamp 12), .push 0 (Ticks.clamp 13)]

/-- The run strands a request. -/
theorem waits_beside_free_cell :
    ∃ w, (system ℕ Bool).execute oneCell strandingRun = some w ∧
      (system ℕ Bool).Reachable w ∧ w.impl.callbacks.contents.length = 1 ∧
      w.impl.storage.available = [0] ∧ ¬w.WaitsOnlyWhenFull := by
  have ran : ((system ℕ Bool).execute oneCell strandingRun).isSome := rfl
  have reached :=
    Transition.System.execute_reachable oneCell_initial (Option.some_get ran).symm
  refine ⟨_, (Option.some_get ran).symm, reached, rfl, rfl, ?_⟩
  intro full
  have noneAvailable : [0] = [] := (full (List.cons_ne_nil _ _)).1
  contradiction

end Async.World

end ResourcePool
