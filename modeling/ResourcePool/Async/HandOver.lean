import ResourcePool.Async.PoolImpl

/-!
# A hand-over delivers what a lease would

While a request is queued, `recycle` and `waste` pass a cell on without giving it back to
the storage. `recycle` then decides by `is_valid` whether the value is kept, where the
storage would decide by the drop time when the cell is leased again. Beside a storage
without a free cell the two ways agree: the cell comes out with the same value and the
lists hold the same cells.
-/

namespace ResourcePool

namespace Storage

variable {V : Type} {s : Storage V} {cell : CellId} {now : TimePoint}

/-- A valid cell which is the only one available has not expired. -/
theorem lease_of_restored (full : s.NoFreeCell) (member : cell ∈ s.used)
    (idle : Ticks.zero < s.idleTimeout) (inTime : now < Ticks.max)
    (valid : s.isValid cell now = true) :
    ((s.recycle cell member now).lease now).1 = some cell ∧
      (((s.recycle cell member now).lease now).2.node cell).value = (s.node cell).value ∧
      ((s.recycle cell member now).lease now).2.available = [] ∧
      ((s.recycle cell member now).lease now).2.used = s.used.erase cell ++ [cell] ∧
      ((s.recycle cell member now).lease now).2.wasted = [] := by
  rw [recycle_of_isValid member valid]
  rw [isValid_eq_true_iff] at valid
  have rests : now < TimeTraits.add now s.idleTimeout := TimeTraits.lt_add idle inTime
  have remaining : (s.toLists.restore cell
      (min (TimeTraits.add now s.idleTimeout) (s.lifeEnd cell))).remaining now = [cell] := by
    simp [Lists.remaining, Lists.restore, full.1, rests, valid.2]
  have expired : (s.toLists.restore cell
      (min (TimeTraits.add now s.idleTimeout) (s.lifeEnd cell))).expired now = [] := by
    simp [Lists.expired, Lists.restore, full.1, rests, valid.2]
  simp only [lease, rearrange, Lists.lease_of_remaining remaining, expired, Lists.dropped]
  simp [Lists.restore, full.2]

/-- A wasted cell is leased again without a value. -/
theorem lease_of_wasted_only (now : TimePoint) (full : s.NoFreeCell) (member : cell ∈ s.used) :
    ((s.waste cell member).lease now).1 = some cell ∧
      (((s.waste cell member).lease now).2.node cell).value = none ∧
      ((s.waste cell member).lease now).2.available = [] ∧
      ((s.waste cell member).lease now).2.used = s.used.erase cell ++ [cell] ∧
      ((s.waste cell member).lease now).2.wasted = [] := by
  have remaining : (s.toLists.waste cell).remaining now = [] := by
    simp [Lists.remaining, Lists.waste, full.1]
  have expired : (s.toLists.waste cell).expired now = [] := by
    simp [Lists.expired, Lists.waste, full.1]
  have first : (s.toLists.waste cell).wasted ++ (s.toLists.waste cell).expired now = [cell] := by
    rw [expired, List.append_nil]
    simp [Lists.waste, full.2]
  have leased := Lists.lease_of_wasted remaining first
  simp only [lease, waste, rearrange, leased, Lists.dropped, expired]
  simp [Lists.waste]

/-- Handing a cell on is giving it back and leasing it at the same time. -/
theorem handOn_eq_lease (strategy : Strategy) (full : s.NoFreeCell) (member : cell ∈ s.used)
    (idle : Ticks.zero < s.idleTimeout) (inTime : now < Ticks.max) :
    ((s.takeBack strategy cell member now).lease now).1 = some cell ∧
      ((s.handOn strategy cell now).node cell).value =
        (((s.takeBack strategy cell member now).lease now).2.node cell).value ∧
      (s.handOn strategy cell now).available =
        ((s.takeBack strategy cell member now).lease now).2.available ∧
      (s.handOn strategy cell now).used.Perm
        ((s.takeBack strategy cell member now).lease now).2.used ∧
      (s.handOn strategy cell now).wasted =
        ((s.takeBack strategy cell member now).lease now).2.wasted := by
  have sameUsed : s.used.Perm (s.used.erase cell ++ [cell]) :=
    (List.perm_cons_erase member).trans (List.perm_append_singleton _ _).symm
  have emptied : ((s.resetValue cell).node cell).value = none := by
    simp [resetValue, write, rearrange]
  cases strategy with
  | recycle =>
      simp only [takeBack, handOn, handOver]
      cases valid : s.isValid cell now with
      | true =>
          rcases lease_of_restored full member idle inTime valid with
            ⟨leased, value, available, used, wasted⟩
          rw [leased, value, available, used, wasted]
          exact ⟨rfl, rfl, full.1, sameUsed, full.2⟩
      | false =>
          rw [recycle_of_not_isValid member valid]
          rcases lease_of_wasted_only now full member with
            ⟨leased, value, available, used, wasted⟩
          rw [leased, value, available, used, wasted]
          exact ⟨rfl, emptied, full.1, sameUsed, full.2⟩
  | waste =>
      simp only [takeBack, handOn]
      rcases lease_of_wasted_only now full member with
        ⟨leased, value, available, used, wasted⟩
      rw [leased, value, available, used, wasted]
      exact ⟨rfl, emptied, full.1, sameUsed, full.2⟩

end Storage

namespace Async.PoolImpl

variable {V Request IoContext : Type} [DecidableEq IoContext]

/-- How `lease` after a cell was given back compares with handing this cell on: the same
cell with the same value, and lists of the same cells. -/
def DeliversLike (impl after : PoolImpl V Request IoContext) (cell : CellId)
    (plain : Option CellId × Storage V) (submission : Submission Request IoContext) : Prop :=
  (∃ oldest ∈ impl.callbacks.contents.head?,
    submission = ⟨oldest.context, .onServeQueuedHandler (.node cell) (some oldest.item)⟩) ∧
  plain.1 = some cell ∧
  (after.storage.node cell).value = (plain.2.node cell).value ∧
  after.storage.available = plain.2.available ∧
  after.storage.used.Perm plain.2.used ∧
  after.storage.wasted = plain.2.wasted

theorem giveBack_delivers (impl : PoolImpl V Request IoContext) (strategy : Strategy)
    {cell : CellId} {now : TimePoint} (full : impl.storage.NoFreeCell)
    (member : cell ∈ impl.storage.used) (idle : Ticks.zero < impl.storage.idleTimeout)
    (inTime : now < Ticks.max) (waiting : impl.callbacks.contents ≠ []) :
    ∃ after submission,
      impl.giveBack strategy (.node cell) now = some (after, some submission) ∧
      impl.DeliversLike after cell
        ((impl.storage.takeBack strategy cell member now).lease now) submission := by
  rcases impl.giveBack_cases strategy member now with
    ⟨isEmpty, _⟩ | ⟨oldest, rest, callbacks, front, result, _⟩
  · contradiction
  · refine ⟨_, _, result, ⟨oldest, ?_, rfl⟩,
      Storage.handOn_eq_lease strategy full member idle inTime⟩
    rw [front]
    exact rfl

/--
While a request is queued and no cell is free, `recycle` and `waste` deliver to the oldest
request the cell and the value which it would get from `lease` if the cell were given back
to the storage at the same time.
-/
theorem hands_over_like_lease (impl : PoolImpl V Request IoContext) {cell : CellId}
    {now : TimePoint} (full : impl.storage.NoFreeCell) (member : cell ∈ impl.storage.used)
    (idle : Ticks.zero < impl.storage.idleTimeout) (inTime : now < Ticks.max)
    (waiting : impl.callbacks.contents ≠ []) :
    (∃ after submission, impl.recycle (.node cell) now = some (after, some submission) ∧
      impl.DeliversLike after cell ((impl.storage.recycle cell member now).lease now)
        submission) ∧
    (∃ after submission, impl.waste (.node cell) = some (after, some submission) ∧
      impl.DeliversLike after cell ((impl.storage.waste cell member).lease now) submission) :=
  ⟨impl.giveBack_delivers .recycle full member idle inTime waiting,
    impl.giveBack_delivers .waste full member idle inTime waiting⟩

/-- The only cell of a pool is used and holds a value, and a request is queued. -/
def oneWaiting : PoolImpl ℕ ℕ Bool where
  storage := ((Storage.generated 1 (fun _ => 7) (Ticks.clamp 10) (Ticks.clamp 100)
    (Ticks.clamp 1)).lease (Ticks.clamp 2)).2
  capacity := 1
  callbacks := ((CoherentQueue.constructed 1).push true (Ticks.clamp 5) 3 (Ticks.clamp 2)).2.2
  disabled := false

theorem hands_over_like_lease_recycled :
    ∃ after submission,
      oneWaiting.recycle (.node 0) (Ticks.clamp 4) = some (after, some submission) ∧
      oneWaiting.DeliversLike after 0
        ((oneWaiting.storage.recycle 0 (show 0 ∈ [0] by decide) (Ticks.clamp 4)).lease
          (Ticks.clamp 4)) submission :=
  (oneWaiting.hands_over_like_lease ⟨rfl, rfl⟩ (show 0 ∈ oneWaiting.storage.used from
    List.mem_singleton_self 0) (show Ticks.zero < Ticks.clamp 10 by decide)
    (show Ticks.clamp 4 < Ticks.max by decide) (List.cons_ne_nil _ _)).1

end Async.PoolImpl

end ResourcePool
