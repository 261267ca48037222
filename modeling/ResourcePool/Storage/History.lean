import Mathlib.Data.Bool.Basic
import ResourcePool.Storage
import ResourcePool.Transition.System

/-!
# Runs of the storage and their history

Both pools touch their storage only through a few actions: the five operations of
the storage, `handle::reset` on a leased cell, and, in the asynchronous pool, the
hand-over of a returned cell to a queued request, which leaves the lists alone.
`Storage.system` is the transition system of these actions; the pools are later
shown to simulate it.

What the marks and the times in a cell mean is a statement about the past. `History`
records this past next to a run, from the actions alone: when a value was stored and
when it was last returned, and which invalidations came after the lease, after the
grant and after the storing of the value. `Storage.Tracked` ties it to the contents
of the cells and is kept by every action.
-/

namespace ResourcePool

universe u

variable {V : Type u}

/-- What a section of a pool, or `handle::reset`, does to the storage. -/
inductive StorageAction (V : Type u) where
  | lease (now : TimePoint)
  | recycle (cell : CellId) (now : TimePoint)
  | waste (cell : CellId)
  /-- A recycled cell goes to a queued request. -/
  | handOverRecycled (cell : CellId) (now : TimePoint)
  /-- A wasted cell goes to a queued request. -/
  | handOverWasted (cell : CellId)
  /-- `handle::reset` through the handle which holds the cell. -/
  | reset (cell : CellId) (value : V) (now : TimePoint)
  | invalidate

/-- The clock reading used by an action. -/
def StorageAction.clock : StorageAction V → Option TimePoint
  | .lease now | .recycle _ now | .handOverRecycled _ now | .reset _ _ now => some now
  | .waste _ | .handOverWasted _ | .invalidate => none

namespace Storage

/-- A cell which is recycled while a request is queued keeps its value if it is valid. -/
def handOver (s : Storage V) (cell : CellId) (now : TimePoint) : Storage V :=
  if s.isValid cell now then s else s.resetValue cell

/-- The effect of an action. Returning, handing over and resetting take a used cell. -/
def perform (s : Storage V) : StorageAction V → Option (Storage V)
  | .lease now => some (s.lease now).2
  | .recycle cell now =>
      if member : cell ∈ s.used then some (s.recycle cell member now) else none
  | .waste cell =>
      if member : cell ∈ s.used then some (s.waste cell member) else none
  | .handOverRecycled cell now =>
      if cell ∈ s.used then some (s.handOver cell now) else none
  | .handOverWasted cell =>
      if cell ∈ s.used then some (s.resetValue cell) else none
  | .reset cell value now =>
      if cell ∈ s.used then some (s.store cell value now) else none
  | .invalidate => some s.invalidate

/-- The cell which an action grants to a client. -/
def granted (s : Storage V) : StorageAction V → Option CellId
  | .lease now => (s.lease now).1
  | .handOverRecycled cell _ => some cell
  | .handOverWasted cell => some cell
  | _ => none

inductive Constructed : Storage V → TimePoint → Prop where
  | empty (capacity : ℕ) (idleTimeout lifespan : Duration) (now : TimePoint) :
      Constructed (Storage.empty capacity idleTimeout lifespan) now
  | generated (capacity : ℕ) (generator : Fin capacity → V) (idleTimeout lifespan : Duration)
      (now : TimePoint) :
      Constructed (Storage.generated capacity generator idleTimeout lifespan now) now

def system (V : Type u) : Transition.System (Storage V) (StorageAction V) where
  Initial s := ∃ now, s.Constructed now
  step := perform

end Storage

/-- What happened to each cell so far. -/
structure History where
  storedAt : CellId → TimePoint
  /-- When the cell was last recycled, or constructed. -/
  returnedAt : CellId → TimePoint
  /-- The storage was invalidated after the last `lease` of the cell. -/
  invalidatedSinceLease : CellId → Bool
  /-- The storage was invalidated after the cell was last granted to a client. -/
  invalidatedSinceGrant : CellId → Bool
  /-- The storage was invalidated after the value in the cell was stored. -/
  outdated : CellId → Bool

namespace History

def fresh (now : TimePoint) : History where
  storedAt _ := now
  returnedAt _ := now
  invalidatedSinceLease _ := false
  invalidatedSinceGrant _ := false
  outdated _ := false

/-- The history begins with the construction of the storage. -/
def Begins (s : Storage V) (history : History) : Prop :=
  ∃ now, s.Constructed now ∧ history = fresh now

def record (s : Storage V) (history : History) : StorageAction V → History
  | .lease now =>
      match (s.lease now).1 with
      | none => history
      | some cell =>
          { history with
            invalidatedSinceLease := Function.update history.invalidatedSinceLease cell false
            invalidatedSinceGrant := Function.update history.invalidatedSinceGrant cell false }
  | .recycle cell now =>
      { history with returnedAt := Function.update history.returnedAt cell now }
  | .waste _ => history
  | .handOverRecycled cell _ | .handOverWasted cell =>
      { history with
        invalidatedSinceGrant := Function.update history.invalidatedSinceGrant cell false }
  | .reset cell _ now =>
      { history with
        storedAt := Function.update history.storedAt cell now
        outdated := Function.update history.outdated cell false }
  | .invalidate =>
      { history with
        invalidatedSinceLease := fun _ => true
        invalidatedSinceGrant := fun _ => true
        outdated := fun _ => true }

end History

namespace Storage

/-- The runs of a storage together with their history. -/
def trackedSystem (V : Type u) :
    Transition.System (Storage V × History) (StorageAction V) :=
  (system V).withHistory History.Begins History.record

/-- What the marks and times of the cells say about the past. -/
structure Tracked (s : Storage V) (history : History) : Prop where
  wasted_empty : ∀ cell ∈ s.wasted, (s.node cell).value = none
  available_unmarked : ∀ cell ∈ s.available, (s.node cell).wasteOnRecycle = false
  used_marked : ∀ cell ∈ s.used,
    (s.node cell).wasteOnRecycle = history.invalidatedSinceLease cell
  held : ∀ cell, (s.node cell).value.isSome → cell ∈ s.available ∨ cell ∈ s.used
  stored : ∀ cell, (s.node cell).value.isSome →
    (s.node cell).resetTime = history.storedAt cell
  returned : ∀ cell ∈ s.available, (s.node cell).value.isSome →
    (s.node cell).dropTime =
      min (TimeTraits.add (history.returnedAt cell) s.idleTimeout)
        (TimeTraits.add (history.storedAt cell) s.lifespan)
  outdated_marked : ∀ cell, (s.node cell).value.isSome → history.outdated cell = true →
    cell ∈ s.used ∧ (s.node cell).wasteOnRecycle = true

theorem Constructed.tracked {s : Storage V} {now : TimePoint} (constructed : s.Constructed now) :
    s.Tracked (History.fresh now) := by
  cases constructed with
  | empty capacity idleTimeout lifespan =>
      constructor <;> simp [Storage.empty, Idle.vacant]
  | generated capacity generator idleTimeout lifespan =>
      have node : ∀ cell, cell < capacity →
          ∃ value, (Storage.generated capacity generator idleTimeout lifespan now).node cell =
            Idle.holding value
              (min (TimeTraits.add now idleTimeout) (TimeTraits.add now lifespan)) now := by
        intro cell inRange
        exact ⟨generator ⟨cell, inRange⟩, by simp [Storage.generated, inRange]⟩
      have inRange : ∀ cell,
          ((Storage.generated capacity generator idleTimeout lifespan now).node cell).value.isSome →
            cell < capacity := by
        intro cell hasValue
        by_contra outside
        simp [Storage.generated, outside, Idle.vacant] at hasValue
      constructor
      · simp [Storage.generated]
      · intro cell member
        rcases node cell (by simpa [Storage.generated] using member) with ⟨value, contents⟩
        rw [contents]
        rfl
      · simp [Storage.generated]
      · intro cell hasValue
        exact Or.inl (by simpa [Storage.generated] using inRange cell hasValue)
      · intro cell hasValue
        rcases node cell (inRange cell hasValue) with ⟨value, contents⟩
        rw [contents]
        rfl
      · intro cell member _
        rcases node cell (by simpa [Storage.generated] using member) with ⟨value, contents⟩
        rw [contents]
        rfl
      · simp [History.fresh]

namespace Tracked

variable {s : Storage V} {history : History}

/-- A step which stores no value and makes no cell available: the values which are left
are where they were, in cells which are available or used. -/
theorem of_dropping {after : Storage V} {sinceLease sinceGrant : CellId → Bool}
    (tracked : s.Tracked history)
    (idleTimeout : after.idleTimeout = s.idleTimeout) (lifespan : after.lifespan = s.lifespan)
    (wasted_empty : ∀ cell ∈ after.wasted, (after.node cell).value = none)
    (available : ∀ cell ∈ after.available, cell ∈ s.available)
    (available_unmarked : ∀ cell ∈ after.available, (after.node cell).wasteOnRecycle = false)
    (used_marked : ∀ cell ∈ after.used, (after.node cell).wasteOnRecycle = sinceLease cell)
    (kept : ∀ cell, (after.node cell).value.isSome → after.node cell = s.node cell)
    (held : ∀ cell, (after.node cell).value.isSome → cell ∈ s.available →
      cell ∈ after.available ∨ cell ∈ after.used)
    (used : ∀ cell, (after.node cell).value.isSome → cell ∈ s.used → cell ∈ after.used) :
    after.Tracked
      { history with
        invalidatedSinceLease := sinceLease
        invalidatedSinceGrant := sinceGrant } where
  wasted_empty := wasted_empty
  available_unmarked := available_unmarked
  used_marked := used_marked
  held := by
    intro cell hasValue
    have before : (s.node cell).value.isSome := kept cell hasValue ▸ hasValue
    rcases tracked.held cell before with wasAvailable | wasUsed
    · exact held cell hasValue wasAvailable
    · exact Or.inr (used cell hasValue wasUsed)
  stored := by
    intro cell hasValue
    rw [kept cell hasValue]
    exact tracked.stored cell (kept cell hasValue ▸ hasValue)
  returned := by
    intro cell isAvailable hasValue
    rw [kept cell hasValue, idleTimeout, lifespan]
    exact tracked.returned cell (available cell isAvailable) (kept cell hasValue ▸ hasValue)
  outdated_marked := by
    intro cell hasValue isOutdated
    rcases tracked.outdated_marked cell (kept cell hasValue ▸ hasValue) isOutdated with
      ⟨wasUsed, marked⟩
    refine ⟨used cell hasValue wasUsed, ?_⟩
    rw [kept cell hasValue]
    exact marked

theorem waste (tracked : s.Tracked history) {cell : CellId} (member : cell ∈ s.used) :
    (s.waste cell member).Tracked history := by
  have same : ∀ other, other ≠ cell → (s.waste cell member).node other = s.node other := by
    intro other different
    simp [Storage.waste, rearrange, Lists.waste, different]
  have emptied : (s.waste cell member).node cell = (s.node cell).clear := by
    simp [Storage.waste, rearrange, Lists.waste]
  have different : ∀ other, ((s.waste cell member).node other).value.isSome → other ≠ cell := by
    intro other hasValue equal
    rw [equal, emptied] at hasValue
    simp at hasValue
  have mark : ∀ other,
      ((s.waste cell member).node other).wasteOnRecycle = (s.node other).wasteOnRecycle := by
    intro other
    by_cases equal : other = cell
    · rw [equal, emptied]
      rfl
    · rw [same other equal]
  refine tracked.of_dropping rfl rfl ?_ (fun _ available => available) ?_ ?_
    (fun other hasValue => same other (different other hasValue))
    (fun _ _ available => Or.inl available)
    (fun other hasValue used => (List.mem_erase_of_ne (different other hasValue)).mpr used)
  · intro other wasted
    by_cases equal : other = cell
    · rw [equal, emptied]
      rfl
    · rw [same other equal]
      have older : other ∈ s.wasted := by
        simpa [Storage.waste, rearrange, Lists.waste, equal] using wasted
      exact tracked.wasted_empty other older
  · intro other available
    rw [mark]
    exact tracked.available_unmarked other available
  · intro other used
    rw [mark]
    exact tracked.used_marked other (List.mem_of_mem_erase used)

/-- The return time of a cell outside of the available list is of no consequence. -/
theorem returnedAt_update (tracked : s.Tracked history) {cell : CellId} (now : TimePoint)
    (apart : cell ∉ s.available) :
    s.Tracked { history with returnedAt := Function.update history.returnedAt cell now } where
  wasted_empty := tracked.wasted_empty
  available_unmarked := tracked.available_unmarked
  used_marked := tracked.used_marked
  held := tracked.held
  stored := tracked.stored
  returned := by
    intro other available hasValue
    have different : other ≠ cell := fun equal => apart (equal ▸ available)
    simpa [different] using tracked.returned other available hasValue
  outdated_marked := tracked.outdated_marked

theorem restore (tracked : s.Tracked history) {cell : CellId} (member : cell ∈ s.used)
    {now : TimePoint} (valid : s.isValid cell now = true) :
    (s.rearrange
      (s.toLists.restore cell (min (TimeTraits.add now s.idleTimeout) (s.lifeEnd cell)))
      (s.toLists.restore_perm member _)).Tracked
      { history with returnedAt := Function.update history.returnedAt cell now } := by
  rw [isValid_eq_true_iff] at valid
  have apart : ∀ other ∈ s.available, other ≠ cell := by
    intro other available equal
    exact not_mem_available_of_mem_used member (equal ▸ available)
  constructor
  · intro other wasted
    have different : other ≠ cell := by
      intro equal
      exact not_mem_wasted_of_mem_used member (equal ▸ wasted)
    simpa [rearrange, Lists.restore, different] using tracked.wasted_empty other wasted
  · intro other available
    by_cases equal : other = cell
    · subst equal
      simpa [rearrange, Lists.restore] using valid.1
    · have older : other ∈ s.available := by
        simpa [rearrange, Lists.restore, equal] using available
      simpa [rearrange, Lists.restore, equal] using tracked.available_unmarked other older
  · intro other used
    have usedBefore : other ∈ s.used := List.mem_of_mem_erase used
    have different : other ≠ cell := by
      intro equal
      subst equal
      exact s.used_nodup.not_mem_erase used
    simpa [rearrange, Lists.restore, different] using tracked.used_marked other usedBefore
  · intro other hasValue
    by_cases equal : other = cell
    · subst equal
      exact Or.inl (by simp [rearrange, Lists.restore])
    · have older : (s.node other).value.isSome := by
        simpa [rearrange, Lists.restore, equal] using hasValue
      rcases tracked.held other older with available | used
      · exact Or.inl (List.mem_append_left _ available)
      · exact Or.inr ((List.mem_erase_of_ne equal).mpr used)
  · intro other hasValue
    by_cases equal : other = cell
    · subst equal
      have older : (s.node other).value.isSome := by
        simpa [rearrange, Lists.restore] using hasValue
      simpa [rearrange, Lists.restore] using tracked.stored other older
    · have older : (s.node other).value.isSome := by
        simpa [rearrange, Lists.restore, equal] using hasValue
      simpa [rearrange, Lists.restore, equal] using tracked.stored other older
  · intro other available hasValue
    by_cases equal : other = cell
    · subst equal
      have older : (s.node other).value.isSome := by
        simpa [rearrange, Lists.restore] using hasValue
      simp [rearrange, Lists.restore, lifeEnd, tracked.stored other older]
    · have availableBefore : other ∈ s.available := by
        simpa [rearrange, Lists.restore, equal] using available
      have older : (s.node other).value.isSome := by
        simpa [rearrange, Lists.restore, equal] using hasValue
      simpa [rearrange, Lists.restore, equal] using
        tracked.returned other availableBefore older
  · intro other hasValue isOutdated
    by_cases equal : other = cell
    · subst equal
      have older : (s.node other).value.isSome := by
        simpa [rearrange, Lists.restore] using hasValue
      have marked := (tracked.outdated_marked other older isOutdated).2
      rw [valid.1] at marked
      contradiction
    · have older : (s.node other).value.isSome := by
        simpa [rearrange, Lists.restore, equal] using hasValue
      rcases tracked.outdated_marked other older isOutdated with ⟨used, marked⟩
      refine ⟨(List.mem_erase_of_ne equal).mpr used, ?_⟩
      simpa [rearrange, Lists.restore, equal] using marked

theorem recycle (tracked : s.Tracked history) {cell : CellId} (member : cell ∈ s.used)
    (now : TimePoint) :
    (s.recycle cell member now).Tracked
      { history with returnedAt := Function.update history.returnedAt cell now } := by
  cases valid : s.isValid cell now with
  | true =>
      rw [recycle_of_isValid member valid]
      exact tracked.restore member valid
  | false =>
      rw [recycle_of_not_isValid member valid]
      exact (tracked.waste member).returnedAt_update now
        (show cell ∉ s.available from not_mem_available_of_mem_used member)

theorem lease (tracked : s.Tracked history) (now : TimePoint) :
    (s.lease now).2.Tracked (history.record s (.lease now)) := by
  have split := s.toLists.expired_append_remaining now
  have expired_available : ∀ cell ∈ s.toLists.expired now, cell ∈ s.available := by
    intro cell member
    rw [← split]
    exact List.mem_append_left _ member
  have remaining_available : ∀ cell ∈ s.toLists.remaining now, cell ∈ s.available := by
    intro cell member
    rw [← split]
    exact List.mem_append_right _ member
  have apart : ∀ cell ∈ s.toLists.remaining now, cell ∉ s.toLists.expired now := by
    intro cell live isExpired
    have distinct := s.distinct
    rw [Lists.cells, List.nodup_append, ← split, List.nodup_append] at distinct
    exact distinct.1.2.2 cell isExpired cell live rfl
  have survives : ∀ cell, (s.toLists.dropped now cell).value.isSome →
      cell ∉ s.toLists.expired now ∧ s.toLists.dropped now cell = s.node cell := by
    intro cell hasValue
    by_cases isExpired : cell ∈ s.toLists.expired now
    · simp [Lists.dropped, isExpired] at hasValue
    · exact ⟨isExpired, by simp [Lists.dropped, isExpired]⟩
  have mark : ∀ cell,
      (s.toLists.dropped now cell).wasteOnRecycle = (s.node cell).wasteOnRecycle := by
    intro cell
    by_cases isExpired : cell ∈ s.toLists.expired now <;> simp [Lists.dropped, isExpired]
  have emptied : ∀ cell ∈ s.wasted ++ s.toLists.expired now,
      (s.toLists.dropped now cell).value = none := by
    intro cell member
    by_cases isExpired : cell ∈ s.toLists.expired now
    · simp [Lists.dropped, isExpired]
    · have wasted : cell ∈ s.wasted := by simpa [isExpired] using member
      simpa [Lists.dropped, isExpired] using tracked.wasted_empty cell wasted
  rcases s.toLists.lease_cases now with
    ⟨candidate, rest, live, leased⟩ | ⟨result, rest, noneLive, first, leased⟩ | ⟨_, leased⟩
  -- a live cell moves from the front of the remaining available cells to the used ones
  · have candidateLive : candidate ∈ s.toLists.remaining now := by simp [live]
    have candidateAvailable := remaining_available candidate candidateLive
    have notUsed : ∀ cell ∈ s.used, cell ≠ candidate := by
      intro cell used equal
      exact not_mem_available_of_mem_used used (equal ▸ candidateAvailable)
    have rest_remaining : ∀ cell ∈ rest, cell ∈ s.toLists.remaining now := by
      intro cell member
      rw [live]
      exact List.mem_cons_of_mem _ member
    simp only [Storage.lease, History.record, leased]
    refine tracked.of_dropping rfl rfl emptied
      (fun cell available => remaining_available cell (rest_remaining cell available)) ?_ ?_
      (fun cell hasValue => (survives cell hasValue).2) ?_
      (fun cell _ used => List.mem_append_left _ used)
    · intro cell available
      change (s.toLists.dropped now cell).wasteOnRecycle = false
      rw [mark]
      exact tracked.available_unmarked cell
        (remaining_available cell (rest_remaining cell available))
    · intro cell used
      change (s.toLists.dropped now cell).wasteOnRecycle = _
      rw [mark]
      rcases List.mem_append.mp used with older | newer
      · simpa [notUsed cell older] using tracked.used_marked cell older
      · have equal : cell = candidate := by simpa using newer
        subst equal
        simpa using tracked.available_unmarked cell candidateAvailable
    · intro cell hasValue available
      rw [← split, live] at available
      rcases List.mem_append.mp available with isExpired | remains
      · exact absurd isExpired (survives cell hasValue).1
      · rcases List.mem_cons.mp remains with equal | later
        · exact Or.inr (by simp [rearrange, equal])
        · exact Or.inl later
  -- no available cell is live, and the first wasted one is unmarked and used
  · rw [noneLive, List.append_nil] at split
    have resultWasted : result ∈ s.wasted ++ s.toLists.expired now := by simp [first]
    have notUsed : ∀ cell ∈ s.used, cell ≠ result := by
      intro cell used equal
      rcases List.mem_append.mp resultWasted with wasted | isExpired
      · exact not_mem_wasted_of_mem_used used (equal ▸ wasted)
      · exact not_mem_available_of_mem_used used (equal ▸ expired_available result isExpired)
    have different : ∀ cell, cell ≠ result →
        Function.update (s.toLists.dropped now) result
          { s.toLists.dropped now result with wasteOnRecycle := false } cell =
            s.toLists.dropped now cell := by
      intro cell apartFrom
      simp [apartFrom]
    have notResult : ∀ cell,
        (Function.update (s.toLists.dropped now) result
          { s.toLists.dropped now result with wasteOnRecycle := false } cell).value.isSome →
            cell ≠ result := by
      intro cell hasValue equal
      rw [equal] at hasValue
      simp [emptied result resultWasted] at hasValue
    have stays : ∀ cell,
        (Function.update (s.toLists.dropped now) result
          { s.toLists.dropped now result with wasteOnRecycle := false } cell).value.isSome →
            (s.toLists.dropped now cell).value.isSome := by
      intro cell hasValue
      rwa [different cell (notResult cell hasValue)] at hasValue
    simp only [Storage.lease, History.record, leased]
    refine tracked.of_dropping rfl rfl ?_ (by simp [rearrange]) (by simp [rearrange]) ?_ ?_ ?_
      (fun cell _ used => List.mem_append_left _ used)
    · intro cell member
      change (Function.update (s.toLists.dropped now) result _ cell).value = none
      by_cases equal : cell = result
      · simp [equal, emptied result resultWasted]
      · rw [different cell equal]
        apply emptied cell
        rw [first]
        exact List.mem_cons_of_mem _ member
    · intro cell used
      change (Function.update (s.toLists.dropped now) result _ cell).wasteOnRecycle = _
      rcases List.mem_append.mp used with older | newer
      · rw [different cell (notUsed cell older), mark]
        simpa [notUsed cell older] using tracked.used_marked cell older
      · have equal : cell = result := by simpa using newer
        simp [equal]
    · intro cell hasValue
      change Function.update (s.toLists.dropped now) result _ cell = _
      rw [different cell (notResult cell hasValue)]
      exact (survives cell (stays cell hasValue)).2
    · intro cell hasValue available
      exact absurd (split ▸ available) (survives cell (stays cell hasValue)).1
  -- there is no free cell
  · simp only [Storage.lease, History.record, leased, rearrange]
    exact tracked

theorem resetValue (tracked : s.Tracked history) {cell : CellId} (member : cell ∈ s.used) :
    (s.resetValue cell).Tracked history := by
  have same : ∀ other, other ≠ cell → (s.resetValue cell).node other = s.node other := by
    intro other different
    simp [Storage.resetValue, write, rearrange, different]
  have emptied : (s.resetValue cell).node cell = (s.node cell).clear := by
    simp [Storage.resetValue, write, rearrange]
  have mark : ∀ other,
      ((s.resetValue cell).node other).wasteOnRecycle = (s.node other).wasteOnRecycle := by
    intro other
    by_cases equal : other = cell
    · rw [equal, emptied]
      rfl
    · rw [same other equal]
  refine tracked.of_dropping rfl rfl ?_ (fun _ available => available) ?_ ?_ ?_
    (fun _ _ available => Or.inl available) (fun _ _ used => used)
  · intro other wasted
    have apartFrom : other ≠ cell := by
      intro equal
      exact not_mem_wasted_of_mem_used member (equal ▸ wasted)
    rw [same other apartFrom]
    exact tracked.wasted_empty other wasted
  · intro other available
    rw [mark]
    exact tracked.available_unmarked other available
  · intro other used
    rw [mark]
    exact tracked.used_marked other used
  · intro other hasValue
    by_cases equal : other = cell
    · rw [equal, emptied] at hasValue
      simp at hasValue
    · exact same other equal

theorem handOver (tracked : s.Tracked history) {cell : CellId} (member : cell ∈ s.used)
    (now : TimePoint) : (s.handOver cell now).Tracked history := by
  simp only [Storage.handOver]
  split
  · exact tracked
  · exact tracked.resetValue member

theorem invalidatedSinceGrant_update (tracked : s.Tracked history) (marks : CellId → Bool) :
    s.Tracked { history with invalidatedSinceGrant := marks } where
  wasted_empty := tracked.wasted_empty
  available_unmarked := tracked.available_unmarked
  used_marked := tracked.used_marked
  held := tracked.held
  stored := tracked.stored
  returned := tracked.returned
  outdated_marked := tracked.outdated_marked

theorem store (tracked : s.Tracked history) {cell : CellId} (member : cell ∈ s.used)
    (value : V) (now : TimePoint) :
    (s.store cell value now).Tracked (history.record s (.reset cell value now)) := by
  have same : ∀ other, other ≠ cell → (s.store cell value now).node other = s.node other := by
    intro other different
    simp [Storage.store, write, rearrange, different]
  have written : (s.store cell value now).node cell =
      { s.node cell with value := some value, resetTime := now } := by
    simp [Storage.store, write, rearrange]
  have apart : ∀ other ∈ s.available, other ≠ cell := by
    intro other available equal
    exact not_mem_available_of_mem_used member (equal ▸ available)
  constructor
  · intro other wasted
    have different : other ≠ cell := by
      intro equal
      exact not_mem_wasted_of_mem_used member (equal ▸ wasted)
    rw [same other different]
    exact tracked.wasted_empty other wasted
  · intro other available
    rw [same other (apart other available)]
    exact tracked.available_unmarked other available
  · intro other used
    by_cases equal : other = cell
    · rw [equal, written]
      exact tracked.used_marked cell member
    · rw [same other equal]
      exact tracked.used_marked other used
  · intro other hasValue
    by_cases equal : other = cell
    · exact Or.inr (equal ▸ member)
    · rw [same other equal] at hasValue
      exact tracked.held other hasValue
  · intro other hasValue
    by_cases equal : other = cell
    · rw [equal, written]
      simp [History.record]
    · rw [same other equal] at hasValue ⊢
      simpa [History.record, equal] using tracked.stored other hasValue
  · intro other available hasValue
    have different := apart other available
    rw [same other different] at hasValue ⊢
    simpa [History.record, different, Storage.store, write, rearrange] using
      tracked.returned other available hasValue
  · intro other hasValue isOutdated
    by_cases equal : other = cell
    · rw [equal] at isOutdated
      simp [History.record] at isOutdated
    · rw [same other equal] at hasValue ⊢
      have before : history.outdated other = true := by
        simpa [History.record, equal] using isOutdated
      exact tracked.outdated_marked other hasValue before

theorem invalidate (tracked : s.Tracked history) :
    s.invalidate.Tracked (history.record s .invalidate) := by
  have of_used : ∀ cell ∈ s.used,
      s.invalidate.node cell = { s.node cell with wasteOnRecycle := true } := by
    intro cell used
    simp [Storage.invalidate, rearrange, Lists.invalidate, used,
      not_mem_available_of_mem_used used]
  have isUsed : ∀ cell, (s.invalidate.node cell).value.isSome → cell ∈ s.used := by
    intro cell hasValue
    by_contra notUsed
    by_cases available : cell ∈ s.available
    · simp [Storage.invalidate, rearrange, Lists.invalidate, available] at hasValue
    · have older : (s.node cell).value.isSome := by
        simpa [Storage.invalidate, rearrange, Lists.invalidate, available, notUsed]
          using hasValue
      rcases tracked.held cell older with inAvailable | inUsed
      · exact available inAvailable
      · exact notUsed inUsed
  constructor
  · intro cell member
    rcases List.mem_append.mp member with wasted | available
    · have notAvailable : cell ∉ s.available := by
        intro available
        exact not_mem_wasted_of_mem_available available wasted
      have notUsed : cell ∉ s.used := by
        intro used
        exact not_mem_wasted_of_mem_used used wasted
      simpa [Storage.invalidate, rearrange, Lists.invalidate, notAvailable, notUsed]
        using tracked.wasted_empty cell wasted
    · simp [Storage.invalidate, rearrange, Lists.invalidate, available]
  · intro cell available
    simp [Storage.invalidate, rearrange, Lists.invalidate] at available
  · intro cell used
    rw [of_used cell used]
    rfl
  · intro cell hasValue
    exact Or.inr (isUsed cell hasValue)
  · intro cell hasValue
    have contents := of_used cell (isUsed cell hasValue)
    rw [contents] at hasValue ⊢
    exact tracked.stored cell hasValue
  · intro cell available
    simp [Storage.invalidate, rearrange, Lists.invalidate] at available
  · intro cell hasValue _
    have used := isUsed cell hasValue
    refine ⟨used, ?_⟩
    rw [of_used cell used]

/-- Every action keeps the marks and times true to the history. -/
theorem perform (tracked : s.Tracked history) {action : StorageAction V} {after : Storage V}
    (performed : s.perform action = some after) :
    after.Tracked (history.record s action) := by
  cases action with
  | lease now =>
      simp only [Storage.perform, Option.some.injEq] at performed
      exact performed ▸ tracked.lease now
  | recycle cell now =>
      simp only [Storage.perform, Option.dite_none_right_eq_some, Option.some.injEq] at performed
      rcases performed with ⟨member, rfl⟩
      exact tracked.recycle member now
  | waste cell =>
      simp only [Storage.perform, Option.dite_none_right_eq_some, Option.some.injEq] at performed
      rcases performed with ⟨member, rfl⟩
      exact tracked.waste member
  | handOverRecycled cell now =>
      simp only [Storage.perform, Option.ite_none_right_eq_some, Option.some.injEq] at performed
      rcases performed with ⟨member, rfl⟩
      exact (tracked.handOver member now).invalidatedSinceGrant_update _
  | handOverWasted cell =>
      simp only [Storage.perform, Option.ite_none_right_eq_some, Option.some.injEq] at performed
      rcases performed with ⟨member, rfl⟩
      exact (tracked.resetValue member).invalidatedSinceGrant_update _
  | reset cell value now =>
      simp only [Storage.perform, Option.ite_none_right_eq_some, Option.some.injEq] at performed
      rcases performed with ⟨member, rfl⟩
      exact tracked.store member value now
  | invalidate =>
      simp only [Storage.perform, Option.some.injEq] at performed
      exact performed ▸ tracked.invalidate

end Tracked

theorem tracked_of_reachable {s : Storage V} {history : History}
    (reached : (trackedSystem V).Reachable (s, history)) : s.Tracked history := by
  apply Transition.System.Reachable.invariant
    (motive := fun pair : Storage V × History => pair.1.Tracked pair.2) ?_ ?_ reached
  · rintro ⟨start, begun⟩ ⟨_, now, constructed, rfl⟩
    exact constructed.tracked
  · rintro ⟨before, past⟩ action ⟨after, later⟩ tracked stepped
    rcases Transition.System.withHistory_step_eq_some.mp stepped with ⟨performed, rfl⟩
    exact tracked.perform performed

/--
A wasted cell has no value and an available one no mark. A used cell is marked just if the
storage was invalidated since the `lease` of this cell.
-/
theorem marks_exact {s : Storage V} {history : History}
    (reached : (trackedSystem V).Reachable (s, history)) :
    (∀ cell ∈ s.wasted, (s.node cell).value = none) ∧
    (∀ cell ∈ s.available, (s.node cell).wasteOnRecycle = false) ∧
    (∀ cell ∈ s.used,
      (s.node cell).wasteOnRecycle = true ↔ history.invalidatedSinceLease cell = true) := by
  have tracked := tracked_of_reachable reached
  refine ⟨tracked.wasted_empty, tracked.available_unmarked, ?_⟩
  intro cell used
  rw [tracked.used_marked cell used]

/-- A used cell is marked by an invalidation. -/
theorem marks_exact_invalidated :
    ∃ s history, (trackedSystem ℕ).execute
        (Storage.empty 2 Ticks.max Ticks.max, History.fresh Ticks.zero)
        [.lease (Ticks.clamp 10), .invalidate, .lease (Ticks.clamp 11)] = some (s, history) ∧
      s.used = [0, 1] ∧
      (∀ cell ∈ s.used,
        (s.node cell).wasteOnRecycle = true ↔ history.invalidatedSinceLease cell = true) ∧
      history.invalidatedSinceLease 0 = true ∧ history.invalidatedSinceLease 1 = false := by
  have ran : ((trackedSystem ℕ).execute
      (Storage.empty 2 Ticks.max Ticks.max, History.fresh Ticks.zero)
      [.lease (Ticks.clamp 10), .invalidate, .lease (Ticks.clamp 11)]).isSome := rfl
  have begins : (trackedSystem ℕ).Initial
      (Storage.empty 2 Ticks.max Ticks.max, History.fresh Ticks.zero) :=
    ⟨⟨Ticks.zero, .empty ..⟩, Ticks.zero, .empty .., rfl⟩
  have reached := Transition.System.execute_reachable begins (Option.some_get ran).symm
  exact ⟨_, _, (Option.some_get ran).symm, rfl, (marks_exact reached).2.2, rfl, rfl⟩

end Storage

end ResourcePool
