import Mathlib.Data.List.Perm.Basic
import Mathlib.Data.List.Nodup
import Mathlib.Data.List.Range
import Mathlib.Data.List.TakeWhile
import Mathlib.Logic.Function.Basic
import ResourcePool.TimeTraits

/-!
# The storage of a pool

A pool keeps its resources in `std::list` nodes, which it splices between an
available, a used and a wasted list. An iterator stays valid while its node moves,
so a node is modelled by an identity, `CellId`, under which its contents are found;
the lists are lists of identities.

`Lists` holds the nodes and the three lists as the code sees them. `Storage` adds
the two timeouts and the invariant which `std::list` itself guarantees: no node is
in two lists, or twice in one. Every operation is a rearrangement of the nodes.
-/

namespace ResourcePool

universe u

/-- The identity of a list node, which an iterator to it denotes. -/
abbrev CellId := ℕ

/-- `detail::idle`. -/
structure Idle (V : Type u) where
  value : Option V
  dropTime : TimePoint
  resetTime : TimePoint
  wasteOnRecycle : Bool

namespace Idle

variable {V : Type u}

/-- A default-constructed cell. -/
def vacant : Idle V := ⟨none, Ticks.max, Ticks.zero, false⟩

/-- A cell constructed with a value. -/
def holding (value : V) (dropTime resetTime : TimePoint) : Idle V :=
  ⟨some value, dropTime, resetTime, false⟩

/-- `value.reset()`. -/
def clear (cell : Idle V) : Idle V := { cell with value := none }

@[simp]
theorem clear_value (cell : Idle V) : cell.clear.value = none := rfl

@[simp]
theorem clear_dropTime (cell : Idle V) : cell.clear.dropTime = cell.dropTime := rfl

@[simp]
theorem clear_resetTime (cell : Idle V) : cell.clear.resetTime = cell.resetTime := rfl

@[simp]
theorem clear_wasteOnRecycle (cell : Idle V) :
    cell.clear.wasteOnRecycle = cell.wasteOnRecycle := rfl

end Idle

/-- The nodes of a storage and its three lists. -/
structure Lists (V : Type u) where
  node : CellId → Idle V
  available : List CellId
  used : List CellId
  wasted : List CellId

/-- `storage_stats`. -/
structure StorageStats where
  available : ℕ
  used : ℕ
  wasted : ℕ
  deriving DecidableEq

namespace Lists

variable {V : Type u}

/-- The cells of the three lists together. -/
def cells (lists : Lists V) : List CellId :=
  lists.available ++ (lists.used ++ lists.wasted)

/-- No cell could be leased: every cell is in the used list. -/
def NoFreeCell (lists : Lists V) : Prop :=
  lists.available = [] ∧ lists.wasted = []

instance (lists : Lists V) : Decidable lists.NoFreeCell :=
  inferInstanceAs (Decidable (_ ∧ _))

/-- The loop of `lease`: cells are taken from the front of the available list, cleared
and appended to the wasted list, as long as their drop time has come. -/
def dropExpired (now : TimePoint) :
    List CellId → List CellId → (CellId → Idle V) →
      List CellId × List CellId × (CellId → Idle V)
  | [], wasted, node => ([], wasted, node)
  | candidate :: available, wasted, node =>
      if (node candidate).dropTime > now then
        (candidate :: available, wasted, node)
      else
        dropExpired now available (wasted ++ [candidate])
          (Function.update node candidate (node candidate).clear)

/-- `storage::lease`, on the nodes and lists. -/
def lease (lists : Lists V) (now : TimePoint) : Option CellId × Lists V :=
  match dropExpired now lists.available lists.wasted lists.node with
  | (candidate :: available, wasted, node) =>
      (some candidate,
        { node := node
          available := available
          used := lists.used ++ [candidate]
          wasted := wasted })
  | ([], result :: wasted, node) =>
      (some result,
        { node := Function.update node result { node result with wasteOnRecycle := false }
          available := []
          used := lists.used ++ [result]
          wasted := wasted })
  | ([], [], node) =>
      (none, { node := node, available := [], used := lists.used, wasted := [] })

/-- `storage::waste`, on the nodes and lists. -/
def waste (lists : Lists V) (cell : CellId) : Lists V where
  node := Function.update lists.node cell (lists.node cell).clear
  available := lists.available
  used := lists.used.erase cell
  wasted := lists.wasted ++ [cell]

/-- The end of `storage::recycle`, where the cell becomes available again. -/
def restore (lists : Lists V) (cell : CellId) (dropTime : TimePoint) : Lists V where
  node := Function.update lists.node cell { lists.node cell with dropTime := dropTime }
  available := lists.available ++ [cell]
  used := lists.used.erase cell
  wasted := lists.wasted

/-- `storage::invalidate`, on the nodes and lists. -/
def invalidate (lists : Lists V) : Lists V where
  node cell :=
    if cell ∈ lists.available then (lists.node cell).clear
    else if cell ∈ lists.used then { lists.node cell with wasteOnRecycle := true }
    else lists.node cell
  available := []
  used := lists.used
  wasted := lists.wasted ++ lists.available

/-- The cells which the loop of `lease` drops: the longest expired run at the front of
the available list. -/
def expired (lists : Lists V) (now : TimePoint) : List CellId :=
  lists.available.takeWhile fun cell => (lists.node cell).dropTime ≤ now

/-- The available cells which the loop of `lease` leaves. -/
def remaining (lists : Lists V) (now : TimePoint) : List CellId :=
  lists.available.dropWhile fun cell => (lists.node cell).dropTime ≤ now

/-- The nodes after the loop of `lease`. -/
def dropped (lists : Lists V) (now : TimePoint) (cell : CellId) : Idle V :=
  if cell ∈ lists.expired now then (lists.node cell).clear else lists.node cell

theorem dropExpired_eq (now : TimePoint) (available wasted : List CellId)
    (node : CellId → Idle V) :
    dropExpired now available wasted node =
      (available.dropWhile fun cell => (node cell).dropTime ≤ now,
        wasted ++ available.takeWhile fun cell => (node cell).dropTime ≤ now,
        fun cell =>
          if cell ∈ available.takeWhile fun cell => (node cell).dropTime ≤ now then
            (node cell).clear
          else node cell) := by
  induction available generalizing wasted node with
  | nil => simp [dropExpired]
  | cons candidate available ih =>
      by_cases live : (node candidate).dropTime > now
      · have notExpired : ¬(node candidate).dropTime ≤ now := not_le_of_gt live
        simp [dropExpired, live, notExpired]
      · have isExpired : (node candidate).dropTime ≤ now := le_of_not_gt live
        have sameTime : ∀ cell,
            (Function.update node candidate (node candidate).clear cell).dropTime =
              (node cell).dropTime := by
          intro cell
          by_cases equal : cell = candidate
          · subst equal
            simp
          · simp [equal]
        simp only [dropExpired, live, if_false, ih, sameTime, isExpired, decide_true,
          List.dropWhile_cons_of_pos, List.takeWhile_cons_of_pos, List.append_assoc,
          List.singleton_append, List.mem_cons, Prod.mk.injEq, true_and]
        funext cell
        by_cases equal : cell = candidate
        · subst equal
          simp [Idle.clear]
        · simp [equal]

theorem dropExpired_lists (lists : Lists V) (now : TimePoint) :
    dropExpired now lists.available lists.wasted lists.node =
      (lists.remaining now, lists.wasted ++ lists.expired now, lists.dropped now) := by
  rw [dropExpired_eq]
  rfl

theorem expired_append_remaining (lists : Lists V) (now : TimePoint) :
    lists.expired now ++ lists.remaining now = lists.available :=
  List.takeWhile_append_dropWhile

theorem lease_of_remaining {lists : Lists V} {now : TimePoint} {candidate : CellId}
    {rest : List CellId} (live : lists.remaining now = candidate :: rest) :
    lists.lease now =
      (some candidate,
        { node := lists.dropped now
          available := rest
          used := lists.used ++ [candidate]
          wasted := lists.wasted ++ lists.expired now }) := by
  simp only [lease, dropExpired_lists, live]

/-- `lease` falls back to the first wasted cell when no available cell is live. -/
theorem lease_of_wasted {lists : Lists V} {now : TimePoint} {result : CellId}
    {rest : List CellId} (noneLive : lists.remaining now = [])
    (first : lists.wasted ++ lists.expired now = result :: rest) :
    lists.lease now =
      (some result,
        { node := Function.update (lists.dropped now) result
            { lists.dropped now result with wasteOnRecycle := false }
          available := []
          used := lists.used ++ [result]
          wasted := rest }) := by
  simp only [lease, dropExpired_lists, noneLive, first]

theorem dropTime_le_of_expired {lists : Lists V} {now : TimePoint} {cell : CellId}
    (isExpired : cell ∈ lists.expired now) : (lists.node cell).dropTime ≤ now := by
  simpa using List.mem_takeWhile_imp isExpired

theorem lt_dropTime_of_remaining {lists : Lists V} {now : TimePoint} {candidate : CellId}
    {rest : List CellId} (live : lists.remaining now = candidate :: rest) :
    now < (lists.node candidate).dropTime := by
  have first := List.head?_dropWhile_not
    (fun cell => decide ((lists.node cell).dropTime ≤ now)) lists.available
  rw [remaining] at live
  rw [live] at first
  simpa using first

theorem lease_of_noFreeCell {lists : Lists V} (now : TimePoint) (full : lists.NoFreeCell) :
    lists.lease now = (none, lists) := by
  rcases lists with ⟨node, available, used, wasted⟩
  rcases full with ⟨rfl, rfl⟩
  simp [lease, dropExpired]

/-- What `lease` does, by the cell it returns: a live one, a wasted one, or none. -/
theorem lease_cases (lists : Lists V) (now : TimePoint) :
    (∃ candidate rest, lists.remaining now = candidate :: rest ∧
      lists.lease now =
        (some candidate,
          { node := lists.dropped now
            available := rest
            used := lists.used ++ [candidate]
            wasted := lists.wasted ++ lists.expired now })) ∨
    (∃ result rest, lists.remaining now = [] ∧
      lists.wasted ++ lists.expired now = result :: rest ∧
      lists.lease now =
        (some result,
          { node := Function.update (lists.dropped now) result
              { lists.dropped now result with wasteOnRecycle := false }
            available := []
            used := lists.used ++ [result]
            wasted := rest })) ∨
    (lists.NoFreeCell ∧ lists.lease now = (none, lists)) := by
  cases live : lists.remaining now with
  | cons candidate rest => exact Or.inl ⟨candidate, rest, rfl, lease_of_remaining live⟩
  | nil =>
      cases first : lists.wasted ++ lists.expired now with
      | cons result rest =>
          exact Or.inr (Or.inl ⟨result, rest, rfl, rfl, lease_of_wasted live first⟩)
      | nil =>
          have full : lists.NoFreeCell := by
            have split := lists.expired_append_remaining now
            rw [List.append_eq_nil_iff] at first
            rw [first.2, live] at split
            exact ⟨split.symm, first.1⟩
          exact Or.inr (Or.inr ⟨full, lease_of_noFreeCell now full⟩)

theorem dropped_of_expired {lists : Lists V} {now : TimePoint} {cell : CellId}
    (isExpired : cell ∈ lists.expired now) : lists.dropped now cell = (lists.node cell).clear :=
  if_pos isExpired

theorem dropped_of_not_expired {lists : Lists V} {now : TimePoint} {cell : CellId}
    (live : cell ∉ lists.expired now) : lists.dropped now cell = lists.node cell :=
  if_neg live

/-- Of what the loop of `lease` leaves in the nodes only a mark is written, in the cell
which is returned. -/
theorem lease_node (lists : Lists V) (now : TimePoint) (cell : CellId) :
    (lists.lease now).2.node cell = lists.dropped now cell ∨
    (lists.lease now).1 = some cell ∧
      (lists.lease now).2.node cell = { lists.dropped now cell with wasteOnRecycle := false } := by
  rcases lists.lease_cases now with
    ⟨candidate, rest, live, leased⟩ | ⟨result, rest, noneLive, first, leased⟩ | ⟨full, leased⟩
  · left
    rw [leased]
  · rw [leased]
    by_cases equal : cell = result
    · subst equal
      exact Or.inr ⟨rfl, by simp⟩
    · exact Or.inl (by simp [equal])
  · left
    have live : cell ∉ lists.expired now := by
      simp [expired, full.1]
    rw [leased, dropped_of_not_expired live]

/-- `lease` moves cells between the lists and neither loses nor copies one. -/
theorem lease_perm (lists : Lists V) (now : TimePoint) :
    (lists.lease now).2.cells.Perm lists.cells := by
  have split := lists.expired_append_remaining now
  rcases lists.lease_cases now with
    ⟨candidate, rest, live, leased⟩ | ⟨result, rest, noneLive, first, leased⟩ | ⟨_, leased⟩
  · rw [leased, cells, cells, ← split, live, List.perm_iff_count]
    intro cell
    simp only [List.count_append, List.count_cons, List.count_nil]
    omega
  · rw [noneLive, List.append_nil] at split
    have counted := fun cell => congrArg (List.count cell) first
    rw [leased, cells, cells, ← split, List.perm_iff_count]
    intro cell
    have := counted cell
    simp only [List.count_append, List.count_cons, List.count_nil] at this ⊢
    omega
  · rw [leased]

theorem waste_perm (lists : Lists V) {cell : CellId} (member : cell ∈ lists.used) :
    (lists.waste cell).cells.Perm lists.cells := by
  rw [List.perm_iff_count]
  intro other
  have := List.count_pos_iff.mpr member
  simp only [cells, waste, List.count_append, List.count_erase, List.count_cons,
    List.count_nil, beq_iff_eq]
  split
  · next equal => subst equal; omega
  · omega

theorem restore_perm (lists : Lists V) {cell : CellId} (member : cell ∈ lists.used)
    (dropTime : TimePoint) : (lists.restore cell dropTime).cells.Perm lists.cells := by
  rw [List.perm_iff_count]
  intro other
  have := List.count_pos_iff.mpr member
  simp only [cells, restore, List.count_append, List.count_erase, List.count_cons,
    List.count_nil, beq_iff_eq]
  split
  · next equal => subst equal; omega
  · omega

theorem invalidate_perm (lists : Lists V) : lists.invalidate.cells.Perm lists.cells := by
  rw [List.perm_iff_count]
  intro other
  simp only [cells, invalidate, List.count_append, List.count_nil]
  omega

end Lists

/-- `detail::storage`: the nodes in their three lists, with the two timeouts. -/
structure Storage (V : Type u) extends Lists V where
  idleTimeout : Duration
  lifespan : Duration
  /-- A node is in one list, once. -/
  distinct : toLists.cells.Nodup

namespace Storage

variable {V : Type u}

/-- A storage after its nodes have been rearranged in the lists. -/
def rearrange (s : Storage V) (lists : Lists V) (same : lists.cells.Perm s.cells) :
    Storage V where
  toLists := lists
  idleTimeout := s.idleTimeout
  lifespan := s.lifespan
  distinct := same.nodup_iff.mpr s.distinct

/-- A storage after the contents of one node have been written. -/
def write (s : Storage V) (cell : CellId) (contents : Idle V) : Storage V :=
  s.rearrange { s.toLists with node := Function.update s.node cell contents } (List.Perm.refl _)

/-- The constructor which leaves all cells without a value. -/
def empty (capacity : ℕ) (idleTimeout lifespan : Duration) : Storage V where
  node _ := Idle.vacant
  available := []
  used := []
  wasted := List.range capacity
  idleTimeout := idleTimeout
  lifespan := lifespan
  distinct := by simpa [Lists.cells] using List.nodup_range

/-- The constructor which fills the cells with the values of a generator, called in
order, at clock reading `now`. -/
def generated (capacity : ℕ) (generator : Fin capacity → V) (idleTimeout lifespan : Duration)
    (now : TimePoint) : Storage V where
  node cell :=
    if inRange : cell < capacity then
      Idle.holding (generator ⟨cell, inRange⟩)
        (min (TimeTraits.add now idleTimeout) (TimeTraits.add now lifespan)) now
    else Idle.vacant
  available := List.range capacity
  used := []
  wasted := []
  idleTimeout := idleTimeout
  lifespan := lifespan
  distinct := by simpa [Lists.cells] using List.nodup_range

def stats (s : Storage V) : StorageStats where
  available := s.available.length
  used := s.used.length
  wasted := s.wasted.length

def lease (s : Storage V) (now : TimePoint) : Option CellId × Storage V :=
  ((s.toLists.lease now).1, s.rearrange (s.toLists.lease now).2 (s.toLists.lease_perm now))

def waste (s : Storage V) (cell : CellId) (member : cell ∈ s.used) : Storage V :=
  s.rearrange (s.toLists.waste cell) (s.toLists.waste_perm member)

/-- The end of the life of the value which `cell` holds. -/
def lifeEnd (s : Storage V) (cell : CellId) : TimePoint :=
  TimeTraits.add (s.node cell).resetTime s.lifespan

def recycle (s : Storage V) (cell : CellId) (member : cell ∈ s.used) (now : TimePoint) :
    Storage V :=
  if (s.node cell).wasteOnRecycle then
    s.waste cell member
  else if s.lifeEnd cell ≤ now then
    s.waste cell member
  else
    s.rearrange
      (s.toLists.restore cell (min (TimeTraits.add now s.idleTimeout) (s.lifeEnd cell)))
      (s.toLists.restore_perm member _)

def isValid (s : Storage V) (cell : CellId) (now : TimePoint) : Bool :=
  if (s.node cell).wasteOnRecycle then
    false
  else if s.lifeEnd cell ≤ now then
    false
  else
    true

def invalidate (s : Storage V) : Storage V :=
  s.rearrange s.toLists.invalidate s.toLists.invalidate_perm

/-- `value.reset()` on the node of an iterator, as the pools call it. -/
def resetValue (s : Storage V) (cell : CellId) : Storage V :=
  s.write cell (s.node cell).clear

/-- The two assignments of `handle::reset`, with the clock reading of the second. -/
def store (s : Storage V) (cell : CellId) (value : V) (now : TimePoint) : Storage V :=
  s.write cell { s.node cell with value := some value, resetTime := now }

theorem lease_none {s : Storage V} {now : TimePoint} (none : (s.lease now).1 = none) :
    s.NoFreeCell ∧ s.lease now = (Option.none, s) := by
  rcases s.toLists.lease_cases now with
    ⟨_, _, _, leased⟩ | ⟨_, _, _, _, leased⟩ | ⟨full, leased⟩
  · simp [lease, leased] at none
  · simp [lease, leased] at none
  · exact ⟨full, by simp only [lease, leased]; rfl⟩

theorem lease_of_noFreeCell {s : Storage V} (now : TimePoint) (full : s.NoFreeCell) :
    s.lease now = (none, s) :=
  (lease_none (by simp [lease, s.toLists.lease_of_noFreeCell now full])).2

theorem lease_some {s : Storage V} {now : TimePoint} {cell : CellId}
    (leased : (s.lease now).1 = some cell) : (s.lease now).2.used = s.used ++ [cell] := by
  rcases s.toLists.lease_cases now with
    ⟨_, _, _, result⟩ | ⟨_, _, _, _, result⟩ | ⟨_, result⟩
  · simp only [lease, result, rearrange, Option.some.injEq] at leased ⊢
    rw [leased]
  · simp only [lease, result, rearrange, Option.some.injEq] at leased ⊢
    rw [leased]
  · simp [lease, result] at leased

theorem isValid_eq_true_iff {s : Storage V} {cell : CellId} {now : TimePoint} :
    s.isValid cell now = true ↔
      (s.node cell).wasteOnRecycle = false ∧ now < s.lifeEnd cell := by
  simp only [isValid]
  split
  · next flagged => simp [flagged]
  · next unflagged =>
      have cleared : (s.node cell).wasteOnRecycle = false := by simpa using unflagged
      split
      · next ended => simp [cleared, not_lt_of_ge ended]
      · next living => simp [cleared, lt_of_not_ge living]

theorem recycle_of_isValid {s : Storage V} {cell : CellId} {now : TimePoint}
    (member : cell ∈ s.used) (valid : s.isValid cell now = true) :
    s.recycle cell member now =
      s.rearrange
        (s.toLists.restore cell (min (TimeTraits.add now s.idleTimeout) (s.lifeEnd cell)))
        (s.toLists.restore_perm member _) := by
  rw [isValid_eq_true_iff] at valid
  simp [recycle, valid.1, not_le_of_gt valid.2]

theorem recycle_of_not_isValid {s : Storage V} {cell : CellId} {now : TimePoint}
    (member : cell ∈ s.used) (invalid : s.isValid cell now = false) :
    s.recycle cell member now = s.waste cell member := by
  simp only [recycle]
  simp only [isValid] at invalid
  split
  · rfl
  · split
    · rfl
    · simp_all

theorem recycle_cells_perm (s : Storage V) {cell : CellId} (member : cell ∈ s.used)
    (now : TimePoint) : (s.recycle cell member now).cells.Perm s.cells := by
  cases valid : s.isValid cell now with
  | true =>
      rw [recycle_of_isValid member valid]
      exact s.toLists.restore_perm member _
  | false =>
      rw [recycle_of_not_isValid member valid]
      exact s.toLists.waste_perm member

@[simp]
theorem recycle_used (s : Storage V) {cell : CellId} (member : cell ∈ s.used)
    (now : TimePoint) : (s.recycle cell member now).used = s.used.erase cell := by
  simp only [recycle]
  split
  · rfl
  · split <;> rfl

theorem not_mem_available_of_mem_used {s : Storage V} {cell : CellId} (member : cell ∈ s.used) :
    cell ∉ s.available := by
  have distinct := s.distinct
  rw [Lists.cells, List.nodup_append] at distinct
  intro available
  exact distinct.2.2 cell available cell (List.mem_append_left _ member) rfl

theorem not_mem_wasted_of_mem_used {s : Storage V} {cell : CellId} (member : cell ∈ s.used) :
    cell ∉ s.wasted := by
  have distinct := s.distinct
  rw [Lists.cells, List.nodup_append, List.nodup_append] at distinct
  intro wasted
  exact distinct.2.1.2.2 cell member cell wasted rfl

theorem not_mem_wasted_of_mem_available {s : Storage V} {cell : CellId}
    (member : cell ∈ s.available) : cell ∉ s.wasted := by
  have distinct := s.distinct
  rw [Lists.cells, List.nodup_append] at distinct
  intro wasted
  exact distinct.2.2 cell member cell (List.mem_append_right _ wasted) rfl

theorem used_nodup (s : Storage V) : s.used.Nodup := by
  have distinct := s.distinct
  rw [Lists.cells, List.nodup_append, List.nodup_append] at distinct
  exact distinct.2.1.1

theorem lease_node_spec (s : Storage V) (now : TimePoint) (cell : CellId) :
    (cell ∈ s.expired now → ((s.lease now).2.node cell).value = none) ∧
    (cell ∉ s.expired now → ((s.lease now).2.node cell).value = (s.node cell).value) ∧
    ((s.lease now).2.node cell).dropTime = (s.node cell).dropTime ∧
    ((s.lease now).2.node cell).resetTime = (s.node cell).resetTime ∧
    ((s.lease now).1 ≠ some cell →
      ((s.lease now).2.node cell).wasteOnRecycle = (s.node cell).wasteOnRecycle) := by
  change (_ → ((s.toLists.lease now).2.node cell).value = none) ∧
    (_ → ((s.toLists.lease now).2.node cell).value = _) ∧
    ((s.toLists.lease now).2.node cell).dropTime = _ ∧
    ((s.toLists.lease now).2.node cell).resetTime = _ ∧
    ((s.toLists.lease now).1 ≠ some cell →
      ((s.toLists.lease now).2.node cell).wasteOnRecycle = _)
  rcases s.toLists.lease_node now cell with same | ⟨isResult, same⟩ <;> rw [same] <;>
  by_cases isExpired : cell ∈ s.expired now
  · simp [Lists.dropped_of_expired isExpired, isExpired]
  · simp [Lists.dropped_of_not_expired isExpired, isExpired]
  · simp [Lists.dropped_of_expired isExpired, isExpired, isResult]
  · simp [Lists.dropped_of_not_expired isExpired, isExpired, isResult]

theorem available_nodup (s : Storage V) : s.available.Nodup := by
  have distinct := s.distinct
  rw [Lists.cells, List.nodup_append] at distinct
  exact distinct.1

theorem lease_ne_of_mem_used {s : Storage V} {now : TimePoint} {cell : CellId}
    (used : cell ∈ s.used) : (s.lease now).1 ≠ some cell := by
  intro leased
  have distinct := (s.lease now).2.used_nodup
  rw [lease_some leased, List.nodup_append] at distinct
  exact distinct.2.2 cell used cell List.mem_cons_self rfl

theorem lease_node_of_mem_used (s : Storage V) (now : TimePoint) {cell : CellId}
    (used : cell ∈ s.used) : (s.lease now).2.node cell = s.node cell := by
  have live : cell ∉ s.expired now := fun isExpired =>
    not_mem_available_of_mem_used used (List.takeWhile_subset _ isExpired)
  rcases s.toLists.lease_node now cell with same | ⟨isResult, _⟩
  · exact same.trans (Lists.dropped_of_not_expired live)
  · exact absurd isResult (lease_ne_of_mem_used used)

/--
`lease` takes the longest run of expired cells from the front of the available list. It
returns the cell behind them as it is, or else the first wasted one with its mark cleared,
and nothing just if there was no free cell, when the storage stays as it was. The expired cells
are wasted in their order, and those in use are left alone.
-/
theorem lease_spec (s : Storage V) (now : TimePoint) :
    s.expired now ++ s.remaining now = s.available ∧
    (∀ cell ∈ s.expired now, (s.node cell).dropTime ≤ now) ∧
    (∀ cell ∈ (s.remaining now).head?, now < (s.node cell).dropTime) ∧
    (∀ cell rest, s.remaining now = cell :: rest →
      (s.lease now).1 = some cell ∧
      (s.lease now).2.node cell = s.node cell ∧
      (s.lease now).2.available = rest ∧
      (s.lease now).2.used = s.used ++ [cell] ∧
      (s.lease now).2.wasted = s.wasted ++ s.expired now) ∧
    (∀ cell rest, s.remaining now = [] → s.wasted ++ s.expired now = cell :: rest →
      (s.lease now).1 = some cell ∧
      ((s.lease now).2.node cell).wasteOnRecycle = false ∧
      (s.lease now).2.available = [] ∧
      (s.lease now).2.used = s.used ++ [cell] ∧
      (s.lease now).2.wasted = rest) ∧
    ((s.lease now).1 = none ↔ s.available = [] ∧ s.wasted = []) ∧
    ((s.lease now).1 = none → s.lease now = (none, s)) ∧
    (∀ cell,
      (cell ∈ s.expired now → ((s.lease now).2.node cell).value = none) ∧
      (cell ∉ s.expired now → ((s.lease now).2.node cell).value = (s.node cell).value) ∧
      ((s.lease now).2.node cell).dropTime = (s.node cell).dropTime ∧
      ((s.lease now).2.node cell).resetTime = (s.node cell).resetTime ∧
      ((s.lease now).1 ≠ some cell →
        ((s.lease now).2.node cell).wasteOnRecycle = (s.node cell).wasteOnRecycle)) ∧
    (s.lease now).2.cells.Perm s.cells ∧
    (∀ cell ∈ s.used, (s.lease now).2.node cell = s.node cell) := by
  refine ⟨s.toLists.expired_append_remaining now, fun _ => Lists.dropTime_le_of_expired, ?_, ?_,
    ?_, ?_, ?_, s.lease_node_spec now, s.toLists.lease_perm now,
    fun _ => s.lease_node_of_mem_used now⟩
  · intro cell isHead
    rcases List.head?_eq_some_iff.mp isHead with ⟨rest, live⟩
    exact Lists.lt_dropTime_of_remaining live
  · intro cell rest live
    have notExpired : cell ∉ s.expired now := by
      have distinct := s.available_nodup
      rw [← s.toLists.expired_append_remaining now, live, List.nodup_append] at distinct
      intro isExpired
      exact distinct.2.2 cell isExpired cell List.mem_cons_self rfl
    have leased := Lists.lease_of_remaining live
    simp only [lease, rearrange, leased, Lists.dropped_of_not_expired notExpired, and_self]
  · intro cell rest noneLive first
    have leased := Lists.lease_of_wasted noneLive first
    simp only [lease, rearrange, leased, Function.update_self, and_self]
  · constructor
    · exact fun none => (lease_none none).1
    · intro full
      rw [s.lease_of_noFreeCell now full]
  · intro nothing
    exact s.lease_of_noFreeCell now (lease_none nothing).1

/-! ### Counting the free cells -/

def freeCells (s : Storage V) : ℕ := s.available.length + s.wasted.length

theorem noFreeCell_iff {s : Storage V} : s.NoFreeCell ↔ s.freeCells = 0 := by
  rw [freeCells, Nat.add_eq_zero_iff, List.length_eq_zero_iff, List.length_eq_zero_iff]
  exact Iff.rfl

theorem length_cells (s : Storage V) : s.cells.length = s.freeCells + s.used.length := by
  simp only [Lists.cells, freeCells, List.length_append]
  omega

theorem freeCells_lease {s : Storage V} {now : TimePoint} {cell : CellId}
    (leased : (s.lease now).1 = some cell) :
    (s.lease now).2.freeCells + 1 = s.freeCells := by
  have sameCells := (s.toLists.lease_perm now).length_eq
  change (s.lease now).2.cells.length = s.cells.length at sameCells
  rw [length_cells, length_cells, lease_some leased, List.length_append,
    List.length_singleton] at sameCells
  omega

theorem freeCells_invalidate (s : Storage V) : s.invalidate.freeCells = s.freeCells := by
  have sameCells : s.invalidate.cells.length = s.cells.length :=
    s.toLists.invalidate_perm.length_eq
  rw [length_cells, length_cells] at sameCells
  change s.invalidate.freeCells + s.used.length = _ at sameCells
  omega

/-- A rearrangement which takes one cell out of the used list frees it. -/
theorem freeCells_of_erase {s after : Storage V} {cell : CellId} (member : cell ∈ s.used)
    (sameCells : after.cells.Perm s.cells) (used : after.used = s.used.erase cell) :
    after.freeCells = s.freeCells + 1 := by
  have length := sameCells.length_eq
  have fewer := List.length_erase_of_mem member
  have := List.length_pos_of_mem member
  rw [length_cells, length_cells, used] at length
  omega

end Storage

end ResourcePool
