import Mathlib.Order.MinMax
import ResourcePool.Storage.History

/-!
# Which values the storage delivers and which it drops

Three facts about one action of the storage, for contents which are true to the
history of the run: a granted cell never holds a value stored before an
invalidation; neither lifespan nor idle timeout of a leased value, nor the lifespan
of a value handed over, has passed; and a value is dropped only for one of the
reasons listed in `DropReason`.

The last one needs that a mark on a used cell stems from an invalidation after the
cell was granted. `lease` clears the mark of the cell it grants, but a hand-over does
not, so this holds of the runs in which no marked cell is handed over.
-/

namespace ResourcePool

universe u

variable {V : Type u}

namespace Storage

/-- The action takes the value out of the cell. -/
def Drops (s after : Storage V) (cell : CellId) : Prop :=
  (s.node cell).value.isSome ∧ (after.node cell).value = none

/-- The reasons for which a value may be dropped. -/
inductive DropReason (s : Storage V) (history : History) (action : StorageAction V)
    (cell : CellId) : Prop where
  /-- Waste was requested for the lease which holds the value. -/
  | wasteRequested (requested : action = .waste cell ∨ action = .handOverWasted cell)
  /-- The lifespan of the value is over. -/
  | lifespanOver {now : TimePoint} (reading : action.clock = some now)
      (ended : TimeTraits.add (history.storedAt cell) s.lifespan ≤ now)
  /-- The value was available for as long as the idle timeout. -/
  | idleTimeoutOver {now : TimePoint} (available : cell ∈ s.available)
      (reading : action.clock = some now)
      (ended : TimeTraits.add (history.returnedAt cell) s.idleTimeout ≤ now)
  /-- The storage was invalidated after the current lease of the cell was granted. -/
  | invalidatedLease (used : cell ∈ s.used)
      (invalidated : history.invalidatedSinceGrant cell = true)
  /-- The storage is invalidated while the cell is available. -/
  | invalidatedAvailable (available : cell ∈ s.available) (invalidated : action = .invalidate)

/-- No marked cell is handed over to a queued request. -/
def HandsOverUnmarked (s : Storage V) : StorageAction V → Prop
  | .handOverRecycled cell _ | .handOverWasted cell => (s.node cell).wasteOnRecycle = false
  | _ => True

namespace Tracked

variable {s : Storage V} {history : History}

theorem leased_value (tracked : s.Tracked history) {now : TimePoint} {cell : CellId}
    (leased : (s.lease now).1 = some cell)
    (hasValue : ((s.lease now).2.node cell).value.isSome) :
    cell ∈ s.available ∧ now < (s.node cell).dropTime ∧
      (s.lease now).2.node cell = s.node cell := by
  rcases s.toLists.lease_cases now with
    ⟨candidate, rest, live, found⟩ | ⟨result, rest, noneLive, first, found⟩ | ⟨_, found⟩
  · simp only [Storage.lease, found, rearrange, Option.some.injEq] at leased hasValue ⊢
    subst leased
    have notExpired : candidate ∉ s.toLists.expired now := by
      intro isExpired
      simp [Lists.dropped, isExpired] at hasValue
    have available : candidate ∈ s.available := by
      rw [← s.toLists.expired_append_remaining now, live]
      simp
    exact ⟨available, Lists.lt_dropTime_of_remaining live, by simp [Lists.dropped, notExpired]⟩
  · simp only [Storage.lease, found, rearrange, Option.some.injEq] at leased hasValue
    subst leased
    have member : result ∈ s.wasted ++ s.toLists.expired now := by simp [first]
    by_cases isExpired : result ∈ s.toLists.expired now
    · simp [Lists.dropped, isExpired] at hasValue
    · have wasted : result ∈ s.wasted := by simpa [isExpired] using member
      simp [Lists.dropped, isExpired, tracked.wasted_empty result wasted] at hasValue
  · simp [Storage.lease, found] at leased

/-- A leased value is within its lifespan and its idle timeout. -/
theorem leased_in_time (tracked : s.Tracked history) {now : TimePoint} {cell : CellId}
    (leased : (s.lease now).1 = some cell)
    (hasValue : ((s.lease now).2.node cell).value.isSome) :
    now < TimeTraits.add (history.storedAt cell) s.lifespan ∧
      now < TimeTraits.add (history.returnedAt cell) s.idleTimeout := by
  rcases tracked.leased_value leased hasValue with ⟨available, alive, same⟩
  rw [same] at hasValue
  rw [tracked.returned cell available hasValue, lt_min_iff] at alive
  exact ⟨alive.2, alive.1⟩

theorem handOver_value {cell : CellId} {now : TimePoint}
    (hasValue : ((s.handOver cell now).node cell).value.isSome) :
    s.isValid cell now = true ∧ s.handOver cell now = s := by
  simp only [Storage.handOver] at hasValue ⊢
  split at hasValue
  · next valid => exact ⟨valid, if_pos valid⟩
  · simp [Storage.resetValue, write, rearrange] at hasValue

/-- A value which is handed over is within its lifespan. -/
theorem handOver_in_time (tracked : s.Tracked history) {cell : CellId} {now : TimePoint}
    (hasValue : ((s.handOver cell now).node cell).value.isSome) :
    now < TimeTraits.add (history.storedAt cell) s.lifespan := by
  rcases handOver_value hasValue with ⟨valid, same⟩
  rw [same] at hasValue
  have living := (isValid_eq_true_iff.mp valid).2
  rwa [lifeEnd, tracked.stored cell hasValue] at living

theorem granted_in_time (tracked : s.Tracked history) {action : StorageAction V}
    {after : Storage V} {cell : CellId} (performed : s.perform action = some after)
    (granted : s.granted action = some cell) (hasValue : (after.node cell).value.isSome) :
    (∃ now, action = .lease now ∧
      now < TimeTraits.add (history.storedAt cell) s.lifespan ∧
      now < TimeTraits.add (history.returnedAt cell) s.idleTimeout) ∨
    ∃ now, action = .handOverRecycled cell now ∧
      now < TimeTraits.add (history.storedAt cell) s.lifespan := by
  cases action with
  | lease now =>
      simp only [Storage.perform, Option.some.injEq] at performed
      subst performed
      exact Or.inl ⟨now, rfl, tracked.leased_in_time granted hasValue⟩
  | handOverRecycled other now =>
      simp only [Storage.perform, Option.ite_none_right_eq_some, Option.some.injEq] at performed
      rcases performed with ⟨_, rfl⟩
      have equal : other = cell := by simpa [Storage.granted] using granted
      subst equal
      exact Or.inr ⟨now, rfl, tracked.handOver_in_time hasValue⟩
  | handOverWasted other =>
      simp only [Storage.perform, Option.ite_none_right_eq_some, Option.some.injEq] at performed
      rcases performed with ⟨_, rfl⟩
      have equal : other = cell := by simpa [Storage.granted] using granted
      subst equal
      simp [Storage.resetValue, write, rearrange] at hasValue
  | recycle | waste | reset | invalidate => simp [Storage.granted] at granted

/-- No grant delivers a value stored before an invalidation. -/
theorem granted_not_outdated (tracked : s.Tracked history) {action : StorageAction V}
    {after : Storage V} {cell : CellId} (performed : s.perform action = some after)
    (granted : s.granted action = some cell) (hasValue : (after.node cell).value.isSome) :
    history.outdated cell = false := by
  cases action with
  | lease now =>
      simp only [Storage.perform, Option.some.injEq] at performed
      subst performed
      rcases tracked.leased_value granted hasValue with ⟨available, _, same⟩
      rw [same] at hasValue
      by_contra isOutdated
      have used := (tracked.outdated_marked cell hasValue (by simpa using isOutdated)).1
      exact not_mem_available_of_mem_used used available
  | handOverRecycled other now =>
      simp only [Storage.perform, Option.ite_none_right_eq_some, Option.some.injEq] at performed
      rcases performed with ⟨_, rfl⟩
      have equal : other = cell := by simpa [Storage.granted] using granted
      subst equal
      rcases handOver_value hasValue with ⟨valid, same⟩
      rw [same] at hasValue
      by_contra isOutdated
      have marked := (tracked.outdated_marked other hasValue (by simpa using isOutdated)).2
      rw [(isValid_eq_true_iff.mp valid).1] at marked
      contradiction
  | handOverWasted other =>
      simp only [Storage.perform, Option.ite_none_right_eq_some, Option.some.injEq] at performed
      rcases performed with ⟨_, rfl⟩
      have equal : other = cell := by simpa [Storage.granted] using granted
      subst equal
      simp [Storage.resetValue, write, rearrange] at hasValue
  | recycle | waste | reset | invalidate => simp [Storage.granted] at granted

end Tracked

/-- On used cells, the last grant was the last lease as far as invalidations go. -/
def GrantsAgree (s : Storage V) (history : History) : Prop :=
  ∀ cell ∈ s.used,
    history.invalidatedSinceGrant cell = history.invalidatedSinceLease cell

theorem GrantsAgree.perform {s after : Storage V} {history : History}
    {action : StorageAction V} (tracked : s.Tracked history)
    (agree : s.GrantsAgree history) (unmarked : s.HandsOverUnmarked action)
    (performed : s.perform action = some after) :
    after.GrantsAgree (history.record s action) := by
  cases action with
  | lease now =>
      simp only [Storage.perform, Option.some.injEq] at performed
      subst performed
      rcases s.toLists.lease_cases now with
        ⟨candidate, rest, _, found⟩ | ⟨candidate, rest, _, _, found⟩ | ⟨_, found⟩
      case inr.inr =>
        simp only [Storage.lease, History.record, found]
        exact agree
      all_goals
        intro cell used
        simp only [Storage.lease, History.record, found, rearrange, List.mem_append,
          List.mem_singleton] at used ⊢
        by_cases equal : cell = candidate
        · simp [equal]
        · simpa [equal] using agree cell (by simpa [equal] using used)
  | recycle cell now =>
      simp only [Storage.perform, Option.dite_none_right_eq_some, Option.some.injEq] at performed
      rcases performed with ⟨member, rfl⟩
      intro other used
      rw [recycle_used] at used
      exact agree other (List.mem_of_mem_erase used)
  | waste cell =>
      simp only [Storage.perform, Option.dite_none_right_eq_some, Option.some.injEq] at performed
      rcases performed with ⟨member, rfl⟩
      intro other used
      exact agree other (List.mem_of_mem_erase used)
  | handOverRecycled cell now =>
      simp only [Storage.perform, Option.ite_none_right_eq_some, Option.some.injEq] at performed
      rcases performed with ⟨member, rfl⟩
      intro other used
      have usedBefore : other ∈ s.used := by
        simp only [handOver] at used
        split at used <;> exact used
      by_cases equal : other = cell
      · subst equal
        simpa [History.record] using
          (tracked.used_marked other usedBefore).symm.trans unmarked
      · simpa [History.record, equal] using agree other usedBefore
  | handOverWasted cell =>
      simp only [Storage.perform, Option.ite_none_right_eq_some, Option.some.injEq] at performed
      rcases performed with ⟨member, rfl⟩
      intro other used
      by_cases equal : other = cell
      · subst equal
        simpa [History.record] using
          (tracked.used_marked other member).symm.trans unmarked
      · simpa [History.record, equal] using agree other used
  | reset cell value now =>
      simp only [Storage.perform, Option.ite_none_right_eq_some, Option.some.injEq] at performed
      rcases performed with ⟨_, rfl⟩
      exact agree
  | invalidate =>
      simp only [Storage.perform, Option.some.injEq] at performed
      subst performed
      intro other _
      rfl

theorem tracked_and_grantsAgree {s : Storage V} {history : History}
    (reached : (trackedSystem V).ReachableVia
      (fun pair action => pair.1.HandsOverUnmarked action) (s, history)) :
    s.Tracked history ∧ s.GrantsAgree history := by
  apply Transition.System.ReachableVia.invariant
    (motive := fun pair : Storage V × History =>
      pair.1.Tracked pair.2 ∧ pair.1.GrantsAgree pair.2) ?_ ?_ reached
  · rintro ⟨start, begun⟩ ⟨_, now, constructed, rfl⟩
    refine ⟨constructed.tracked, ?_⟩
    intro cell _
    rfl
  · rintro ⟨before, past⟩ action ⟨after, later⟩ ⟨tracked, agree⟩ unmarked stepped
    rcases Transition.System.withHistory_step_eq_some.mp stepped with ⟨performed, rfl⟩
    exact ⟨tracked.perform performed, agree.perform tracked unmarked performed⟩

namespace Tracked

variable {s : Storage V} {history : History}

theorem dropReason_of_not_isValid (tracked : s.Tracked history)
    (agree : s.GrantsAgree history) {cell : CellId} {now : TimePoint}
    {action : StorageAction V} (reading : action.clock = some now) (used : cell ∈ s.used)
    (hasValue : (s.node cell).value.isSome) (invalid : s.isValid cell now = false) :
    DropReason s history action cell := by
  by_cases marked : (s.node cell).wasteOnRecycle = true
  · refine .invalidatedLease used ?_
    rw [agree cell used, ← tracked.used_marked cell used]
    exact marked
  · have ended : ¬now < s.lifeEnd cell := by
      intro living
      have valid := isValid_eq_true_iff.mpr ⟨by simpa using marked, living⟩
      rw [invalid] at valid
      contradiction
    rw [lifeEnd, tracked.stored cell hasValue] at ended
    exact .lifespanOver reading (le_of_not_gt ended)

/-- Where no marked cell is handed over, a value is dropped only for a reason. -/
theorem dropReason (tracked : s.Tracked history) (agree : s.GrantsAgree history)
    {action : StorageAction V} {after : Storage V} {cell : CellId}
    (performed : s.perform action = some after) (drops : s.Drops after cell) :
    DropReason s history action cell := by
  rcases drops with ⟨hasValue, gone⟩
  cases action with
  | lease now =>
      simp only [Storage.perform, Option.some.injEq] at performed
      subst performed
      have isExpired : cell ∈ s.toLists.expired now := by
        by_contra notExpired
        have same : s.toLists.dropped now cell = s.node cell := by
          simp [Lists.dropped, notExpired]
        have kept : ((s.lease now).2.node cell).value = (s.node cell).value := by
          rcases s.toLists.lease_cases now with
            ⟨_, _, _, found⟩ | ⟨result, _, _, _, found⟩ | ⟨_, found⟩
          · simp [Storage.lease, found, rearrange, same]
          · by_cases equal : cell = result
            · subst equal
              simp [Storage.lease, found, rearrange, same]
            · simp [Storage.lease, found, rearrange, same, equal]
          · simp [Storage.lease, found, rearrange]
        rw [kept] at gone
        simp [gone] at hasValue
      have available : cell ∈ s.available := by
        rw [← s.toLists.expired_append_remaining now]
        exact List.mem_append_left _ isExpired
      have due := Lists.dropTime_le_of_expired isExpired
      rw [tracked.returned cell available hasValue, min_le_iff] at due
      rcases due with idle | life
      · exact .idleTimeoutOver available rfl idle
      · exact .lifespanOver rfl life
  | recycle other now =>
      simp only [Storage.perform, Option.dite_none_right_eq_some, Option.some.injEq] at performed
      rcases performed with ⟨member, rfl⟩
      cases valid : s.isValid other now with
      | true =>
          exfalso
          rw [recycle_of_isValid member valid] at gone
          by_cases equal : cell = other
          · subst equal
            simp [rearrange, Lists.restore] at gone
            simp [gone] at hasValue
          · simp [rearrange, Lists.restore, equal] at gone
            simp [gone] at hasValue
      | false =>
          rw [recycle_of_not_isValid member valid] at gone
          by_cases equal : cell = other
          · subst equal
            exact tracked.dropReason_of_not_isValid agree rfl member hasValue valid
          · simp [Storage.waste, rearrange, Lists.waste, equal] at gone
            simp [gone] at hasValue
  | waste other =>
      simp only [Storage.perform, Option.dite_none_right_eq_some, Option.some.injEq] at performed
      rcases performed with ⟨member, rfl⟩
      by_cases equal : cell = other
      · exact .wasteRequested (Or.inl (by rw [equal]))
      · simp [Storage.waste, rearrange, Lists.waste, equal] at gone
        simp [gone] at hasValue
  | handOverRecycled other now =>
      simp only [Storage.perform, Option.ite_none_right_eq_some, Option.some.injEq] at performed
      rcases performed with ⟨member, rfl⟩
      cases valid : s.isValid other now with
      | true =>
          simp [Storage.handOver, valid] at gone
          simp [gone] at hasValue
      | false =>
          by_cases equal : cell = other
          · subst equal
            exact tracked.dropReason_of_not_isValid agree rfl member hasValue valid
          · simp [Storage.handOver, valid, Storage.resetValue, write, rearrange, equal] at gone
            simp [gone] at hasValue
  | handOverWasted other =>
      simp only [Storage.perform, Option.ite_none_right_eq_some, Option.some.injEq] at performed
      rcases performed with ⟨member, rfl⟩
      by_cases equal : cell = other
      · exact .wasteRequested (Or.inr (by rw [equal]))
      · simp [Storage.resetValue, write, rearrange, equal] at gone
        simp [gone] at hasValue
  | reset other value now =>
      simp only [Storage.perform, Option.ite_none_right_eq_some, Option.some.injEq] at performed
      rcases performed with ⟨_, rfl⟩
      by_cases equal : cell = other
      · simp [Storage.store, write, rearrange, equal] at gone
      · simp [Storage.store, write, rearrange, equal] at gone
        simp [gone] at hasValue
  | invalidate =>
      simp only [Storage.perform, Option.some.injEq] at performed
      subst performed
      by_cases available : cell ∈ s.available
      · exact .invalidatedAvailable available rfl
      · by_cases used : cell ∈ s.used
        · simp [Storage.invalidate, rearrange, Lists.invalidate, available, used] at gone
          simp [gone] at hasValue
        · simp [Storage.invalidate, rearrange, Lists.invalidate, available, used] at gone
          simp [gone] at hasValue

end Tracked

theorem perform_value_of_return {s after : Storage V} {action : StorageAction V}
    {cell : CellId} {now : TimePoint}
    (returns : action = .recycle cell now ∨ action = .handOverRecycled cell now)
    (performed : s.perform action = some after) :
    (after.node cell).value = (s.node cell).value ∨ (after.node cell).value = none := by
  rcases returns with rfl | rfl
  · simp only [perform, Option.dite_none_right_eq_some, Option.some.injEq] at performed
    rcases performed with ⟨member, rfl⟩
    cases valid : s.isValid cell now with
    | true =>
        left
        rw [recycle_of_isValid member valid]
        simp [rearrange, Lists.restore]
    | false =>
        right
        rw [recycle_of_not_isValid member valid]
        simp [waste, rearrange, Lists.waste]
  · simp only [perform, Option.ite_none_right_eq_some, Option.some.injEq] at performed
    rcases performed with ⟨member, rfl⟩
    cases valid : s.isValid cell now with
    | true => exact Or.inl (by simp [handOver, valid])
    | false => exact Or.inr (by simp [handOver, valid, resetValue, write, rearrange])

/-- Nothing justifies to drop a value which is returned within its lifespan by a lease
granted after the last invalidation. -/
theorem not_dropReason_of_return {s : Storage V} {history : History}
    {action : StorageAction V} {cell : CellId} {now : TimePoint} (used : cell ∈ s.used)
    (returns : action = .recycle cell now ∨ action = .handOverRecycled cell now)
    (granted : history.invalidatedSinceGrant cell = false)
    (living : now < TimeTraits.add (history.storedAt cell) s.lifespan) :
    ¬DropReason s history action cell := by
  have reading : action.clock = some now := by rcases returns with rfl | rfl <;> rfl
  intro reason
  cases reason with
  | wasteRequested requested => rcases returns with rfl | rfl <;> simp at requested
  | lifespanOver otherReading ended =>
      rw [reading, Option.some.injEq] at otherReading
      subst otherReading
      exact not_lt_of_ge ended living
  | idleTimeoutOver available => exact not_mem_available_of_mem_used used available
  | invalidatedLease _ invalidated =>
      rw [granted] at invalidated
      contradiction
  | invalidatedAvailable available => exact not_mem_available_of_mem_used used available

theorem Tracked.kept {s after : Storage V} {history : History} {action : StorageAction V}
    {cell : CellId} {now : TimePoint} (tracked : s.Tracked history)
    (agree : s.GrantsAgree history)
    (returns : action = .recycle cell now ∨ action = .handOverRecycled cell now)
    (performed : s.perform action = some after)
    (granted : history.invalidatedSinceGrant cell = false)
    (living : now < TimeTraits.add (history.storedAt cell) s.lifespan) :
    (after.node cell).value = (s.node cell).value := by
  rcases perform_value_of_return returns performed with same | gone
  · exact same
  · have used : cell ∈ s.used := by
      rcases returns with rfl | rfl
      · simp only [Storage.perform, Option.dite_none_right_eq_some] at performed
        exact performed.1
      · simp only [Storage.perform, Option.ite_none_right_eq_some] at performed
        exact performed.1
    cases before : (s.node cell).value with
    | none => exact gone
    | some value =>
        exact absurd (tracked.dropReason agree performed ⟨by simp [before], gone⟩)
          (not_dropReason_of_return used returns granted living)

end Storage

end ResourcePool
