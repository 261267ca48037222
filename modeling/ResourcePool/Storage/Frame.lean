import ResourcePool.Storage.History

/-!
# What the actions of a storage leave alone

An action is about one used cell, or about none. All other used cells stay used and keep
what they hold. Only `invalidate` writes to them, and sets nothing but their marks.
-/

namespace ResourcePool

universe u

variable {V : Type u}

/-- The used cell which an action is about. -/
def StorageAction.target : StorageAction V → Option CellId
  | .recycle cell _ | .waste cell | .handOverRecycled cell _ | .handOverWasted cell
  | .reset cell _ _ => some cell
  | .lease _ | .invalidate => none

/-- A cell holds what it held before, and keeps its mark. -/
structure Idle.Keeps (before after : Idle V) : Prop where
  value : after.value = before.value
  dropTime : after.dropTime = before.dropTime
  resetTime : after.resetTime = before.resetTime
  marked : before.wasteOnRecycle = true → after.wasteOnRecycle = true

theorem Idle.Keeps.of_eq {before after : Idle V} (same : after = before) : before.Keeps after := by
  subst same
  exact ⟨rfl, rfl, rfl, id⟩

theorem Idle.Keeps.trans {first second third : Idle V} (kept : first.Keeps second)
    (keptAgain : second.Keeps third) : first.Keeps third where
  value := keptAgain.value.trans kept.value
  dropTime := keptAgain.dropTime.trans kept.dropTime
  resetTime := keptAgain.resetTime.trans kept.resetTime
  marked := fun marked => keptAgain.marked (kept.marked marked)

namespace Storage

variable {s after : Storage V} {cell other : CellId}

theorem not_mem_used_of_lease {now : TimePoint} (leased : (s.lease now).1 = some cell) :
    cell ∉ s.used := by
  have distinct := (s.lease now).2.used_nodup
  rw [lease_some leased, List.nodup_append] at distinct
  intro used
  exact distinct.2.2 cell used cell (List.mem_singleton_self cell) rfl

theorem lease_frame (now : TimePoint) (used : cell ∈ s.used) :
    cell ∈ (s.lease now).2.used ∧ (s.node cell).Keeps ((s.lease now).2.node cell) := by
  cases leased : (s.lease now).1 with
  | none =>
      rw [(lease_none leased).2]
      exact ⟨used, .of_eq rfl⟩
  | some granted =>
      have different : (s.lease now).1 ≠ some cell := fun same =>
        not_mem_used_of_lease same used
      have live : cell ∉ s.expired now := by
        intro expired
        exact not_mem_available_of_mem_used used ((List.takeWhile_subset _) expired)
      rcases s.lease_node_spec now cell with ⟨_, value, dropTime, resetTime, mark⟩
      rw [lease_some leased]
      exact ⟨List.mem_append_left _ used, value live, dropTime, resetTime,
        fun marked => (mark different).trans marked⟩

theorem write_frame (contents : Idle V) (used : other ∈ s.used) (apart : cell ≠ other) :
    other ∈ (s.write cell contents).used ∧
      (s.node other).Keeps ((s.write cell contents).node other) :=
  ⟨used, .of_eq (Function.update_of_ne apart.symm _ _)⟩

theorem waste_frame (member : cell ∈ s.used) (used : other ∈ s.used) (apart : cell ≠ other) :
    other ∈ (s.waste cell member).used ∧
      (s.node other).Keeps ((s.waste cell member).node other) :=
  ⟨(List.mem_erase_of_ne apart.symm).mpr used, .of_eq (Function.update_of_ne apart.symm _ _)⟩

theorem recycle_frame (member : cell ∈ s.used) (now : TimePoint) (used : other ∈ s.used)
    (apart : cell ≠ other) :
    other ∈ (s.recycle cell member now).used ∧
      (s.node other).Keeps ((s.recycle cell member now).node other) := by
  cases valid : s.isValid cell now with
  | true =>
      rw [recycle_of_isValid member valid]
      exact ⟨(List.mem_erase_of_ne apart.symm).mpr used,
        .of_eq (Function.update_of_ne apart.symm _ _)⟩
  | false =>
      rw [recycle_of_not_isValid member valid]
      exact waste_frame member used apart

theorem invalidate_frame (used : cell ∈ s.used) :
    cell ∈ s.invalidate.used ∧ (s.node cell).Keeps (s.invalidate.node cell) := by
  have contents : s.invalidate.node cell = { s.node cell with wasteOnRecycle := true } := by
    have apart := not_mem_available_of_mem_used used
    change (if cell ∈ s.available then _ else if cell ∈ s.used then _ else _) = _
    rw [if_neg apart, if_pos used]
  rw [contents]
  exact ⟨used, rfl, rfl, rfl, fun _ => rfl⟩

/-- Only the cell which an action is about is taken out of the used list or changed. -/
theorem perform_frame {action : StorageAction V} (performed : s.perform action = some after)
    (used : cell ∈ s.used) (apart : action.target ≠ some cell) :
    cell ∈ after.used ∧ (s.node cell).Keeps (after.node cell) := by
  have different : ∀ target, action.target = some target → target ≠ cell := by
    rintro target isTarget rfl
    exact apart isTarget
  cases action with
  | lease now =>
      rw [← Option.some.inj performed]
      exact lease_frame now used
  | recycle target now =>
      simp only [perform, Option.dite_none_right_eq_some, Option.some.injEq] at performed
      rcases performed with ⟨member, rfl⟩
      exact recycle_frame member now used (different target rfl)
  | waste target =>
      simp only [perform, Option.dite_none_right_eq_some, Option.some.injEq] at performed
      rcases performed with ⟨member, rfl⟩
      exact waste_frame member used (different target rfl)
  | handOverRecycled target now =>
      simp only [perform, Option.ite_none_right_eq_some, Option.some.injEq] at performed
      rcases performed with ⟨member, rfl⟩
      simp only [handOver]
      split
      · exact ⟨used, .of_eq rfl⟩
      · exact write_frame _ used (different target rfl)
  | handOverWasted target =>
      simp only [perform, Option.ite_none_right_eq_some, Option.some.injEq] at performed
      rcases performed with ⟨member, rfl⟩
      exact write_frame _ used (different target rfl)
  | reset target value now =>
      simp only [perform, Option.ite_none_right_eq_some, Option.some.injEq] at performed
      rcases performed with ⟨member, rfl⟩
      exact write_frame _ used (different target rfl)
  | invalidate =>
      rw [← Option.some.inj performed]
      exact invalidate_frame used

/-- No action loses a cell, or copies one. -/
theorem perform_cells_perm {action : StorageAction V} (performed : s.perform action = some after) :
    after.cells.Perm s.cells := by
  cases action with
  | lease now =>
      rw [← Option.some.inj performed]
      exact s.toLists.lease_perm now
  | recycle target now =>
      simp only [perform, Option.dite_none_right_eq_some, Option.some.injEq] at performed
      rcases performed with ⟨member, rfl⟩
      exact s.recycle_cells_perm member now
  | waste target =>
      simp only [perform, Option.dite_none_right_eq_some, Option.some.injEq] at performed
      rcases performed with ⟨member, rfl⟩
      exact s.toLists.waste_perm member
  | handOverRecycled target now =>
      simp only [perform, Option.ite_none_right_eq_some, Option.some.injEq] at performed
      rcases performed with ⟨_, rfl⟩
      simp only [handOver]
      split
      · exact List.Perm.refl _
      · exact List.Perm.refl _
  | handOverWasted target | reset target value now =>
      simp only [perform, Option.ite_none_right_eq_some, Option.some.injEq] at performed
      rcases performed with ⟨_, rfl⟩
      exact List.Perm.refl _
  | invalidate =>
      rw [← Option.some.inj performed]
      exact s.toLists.invalidate_perm

end Storage

end ResourcePool
