import Mathlib.Algebra.Group.Int.Defs
import Mathlib.Order.Basic
import Mathlib.Order.Lattice

/-!
# Clock readings and their saturating addition

The steady clock counts signed 64-bit ticks, for its time points as well as for
its durations. `Ticks` is such a count together with its range, so that no value
of the model lies outside of what the clock can represent. `TimeTraits.add`
follows the branches of `time_traits::add`; that the sum it computes last is in
range is part of its definition. `TimeTraits.add?` evaluates the same expressions in the
arithmetic of the machine, in which a signed overflow is undefined; there is none.
-/

namespace ResourcePool

@[ext]
structure Ticks where
  count : ℤ
  lower : -2 ^ 63 ≤ count
  upper : count ≤ 2 ^ 63 - 1
  deriving DecidableEq

abbrev TimePoint := Ticks

abbrev Duration := Ticks

namespace Ticks

theorem count_injective : Function.Injective count := fun _ _ equal => Ticks.ext equal

instance : LinearOrder Ticks :=
  LinearOrder.lift' count count_injective

theorem le_iff {left right : Ticks} : left ≤ right ↔ left.count ≤ right.count := Iff.rfl

theorem lt_iff {left right : Ticks} : left < right ↔ left.count < right.count :=
  lt_iff_lt_of_le_iff_le le_iff

/-- `time_point::max()` and `duration::max()`. -/
def max : Ticks := ⟨2 ^ 63 - 1, by decide, by decide⟩

/-- `time_point::min()` and `duration::min()`. -/
def min : Ticks := ⟨-2 ^ 63, by decide, by decide⟩

/-- The epoch, which is also the default-constructed time point, and `duration(0)`. -/
def zero : Ticks := ⟨0, by decide, by decide⟩

/-- The tick count nearest to an integer. -/
def clamp (count : ℤ) : Ticks where
  count := if count < -2 ^ 63 then -2 ^ 63 else if 2 ^ 63 - 1 < count then 2 ^ 63 - 1 else count
  lower := by split <;> [skip; split] <;> omega
  upper := by split <;> [skip; split] <;> omega

@[simp]
theorem max_count : max.count = 2 ^ 63 - 1 := rfl

@[simp]
theorem min_count : min.count = -2 ^ 63 := rfl

@[simp]
theorem zero_count : zero.count = 0 := rfl

/-- A result of signed arithmetic: undefined, `none`, where it overflows. -/
def ofCount? (count : ℤ) : Option Ticks :=
  if inRange : -2 ^ 63 ≤ count ∧ count ≤ 2 ^ 63 - 1 then
    some ⟨count, inRange.1, inRange.2⟩
  else none

def add? (left right : Ticks) : Option Ticks := ofCount? (left.count + right.count)

def sub? (left right : Ticks) : Option Ticks := ofCount? (left.count - right.count)

def neg? (ticks : Ticks) : Option Ticks := ofCount? (-ticks.count)

theorem ofCount?_eq_some_iff {count : ℤ} {ticks : Ticks} :
    ofCount? count = some ticks ↔ ticks.count = count := by
  simp only [ofCount?, Option.dite_none_right_eq_some, Option.some.injEq]
  constructor
  · rintro ⟨_, rfl⟩
    rfl
  · rintro rfl
    exact ⟨⟨ticks.lower, ticks.upper⟩, rfl⟩

theorem exists_ofCount? {count : ℤ} (lower : -2 ^ 63 ≤ count) (upper : count ≤ 2 ^ 63 - 1) :
    ∃ ticks, ofCount? count = some ticks ∧ ticks.count = count :=
  ⟨⟨count, lower, upper⟩, ofCount?_eq_some_iff.mpr rfl, rfl⟩

theorem clamp_count (count : ℤ) :
    (clamp count).count = Max.max min.count (Min.min max.count count) := by
  simp only [clamp, min_count, max_count]
  split_ifs <;> omega

theorem clamp_le_clamp {lesser greater : ℤ} (ordered : lesser ≤ greater) :
    clamp lesser ≤ clamp greater := by
  rw [le_iff, clamp_count, clamp_count]
  omega

end Ticks

def TimeTraits.add (t : TimePoint) (d : Duration) : TimePoint :=
  if fromEpoch : Ticks.zero ≤ t then
    if overflows : Ticks.max.count - t.count < d.count then
      Ticks.max
    else
      ⟨t.count + d.count,
        by
          have := d.lower
          simp only [Ticks.le_iff, Ticks.zero_count] at fromEpoch
          omega,
        by
          simp only [Ticks.max_count] at overflows
          omega⟩
  else
    if underflows : d.count < -(t.count - Ticks.min.count) then
      Ticks.min
    else
      ⟨t.count + d.count,
        by
          simp only [Ticks.min_count] at underflows
          omega,
        by
          have := d.upper
          simp only [Ticks.le_iff, Ticks.zero_count] at fromEpoch
          omega⟩

theorem TimeTraits.add_count (t : TimePoint) (d : Duration) :
    (TimeTraits.add t d).count = (Ticks.clamp (t.count + d.count)).count := by
  have := t.lower
  have := t.upper
  have := d.lower
  have := d.upper
  by_cases fromEpoch : Ticks.zero ≤ t
  · have started := Ticks.le_iff.mp fromEpoch
    rw [Ticks.zero_count] at started
    by_cases overflows : Ticks.max.count - t.count < d.count
    · rw [TimeTraits.add, dif_pos fromEpoch, dif_pos overflows]
      rw [Ticks.max_count] at overflows ⊢
      simp only [Ticks.clamp]
      rw [if_neg (by omega), if_pos (by omega)]
    · rw [TimeTraits.add, dif_pos fromEpoch, dif_neg overflows]
      have bounded := overflows
      rw [Ticks.max_count] at bounded
      simp only [Ticks.clamp]
      rw [if_neg (by omega), if_neg (by omega)]
  · have before : t.count < 0 := lt_of_not_ge fun started => fromEpoch (Ticks.le_iff.mpr started)
    by_cases underflows : d.count < -(t.count - Ticks.min.count)
    · rw [TimeTraits.add, dif_neg fromEpoch, dif_pos underflows]
      rw [Ticks.min_count] at underflows ⊢
      simp only [Ticks.clamp]
      rw [if_pos (by omega)]
    · rw [TimeTraits.add, dif_neg fromEpoch, dif_neg underflows]
      have bounded := underflows
      rw [Ticks.min_count] at bounded
      simp only [Ticks.clamp]
      rw [if_neg (by omega), if_neg (by omega)]

theorem TimeTraits.add_eq_clamp (t : TimePoint) (d : Duration) :
    TimeTraits.add t d = Ticks.clamp (t.count + d.count) :=
  Ticks.count_injective (add_count t d)

/-- `time_traits::add` as the machine evaluates it. -/
def TimeTraits.add? (t : TimePoint) (d : Duration) : Option TimePoint :=
  if Ticks.zero ≤ t then do
    let ahead ← Ticks.max.sub? t
    if ahead < d then return Ticks.max else t.add? d
  else do
    let behind ← t.sub? Ticks.min
    let back ← behind.neg?
    if d < back then return Ticks.min else t.add? d

/-- No branch overflows: the distance to the end of the clock is computed from the epoch on,
that from its beginning before the epoch, and the sum is computed where it is in range. -/
theorem TimeTraits.add?_eq_some (t : TimePoint) (d : Duration) :
    TimeTraits.add? t d = some (TimeTraits.add t d) := by
  have := t.lower
  have := t.upper
  by_cases fromEpoch : Ticks.zero ≤ t
  · have started := Ticks.le_iff.mp fromEpoch
    rw [Ticks.zero_count] at started
    obtain ⟨ahead, isAhead, count⟩ : ∃ ahead, Ticks.max.sub? t = some ahead ∧
        ahead.count = Ticks.max.count - t.count := by
      apply Ticks.exists_ofCount?
      · rw [Ticks.max_count]
        omega
      · rw [Ticks.max_count]
        omega
    simp only [add?, add, fromEpoch, if_true, dif_pos, isAhead, Option.bind_eq_bind,
      Option.bind_some, Option.pure_def, Ticks.lt_iff, count]
    split
    · rfl
    · exact Ticks.ofCount?_eq_some_iff.mpr rfl
  · have before : t.count < 0 := lt_of_not_ge fun started => fromEpoch (Ticks.le_iff.mpr started)
    obtain ⟨behind, isBehind, behindCount⟩ : ∃ behind, t.sub? Ticks.min = some behind ∧
        behind.count = t.count - Ticks.min.count := by
      apply Ticks.exists_ofCount?
      · rw [Ticks.min_count]
        omega
      · rw [Ticks.min_count]
        omega
    obtain ⟨back, isBack, count⟩ : ∃ back, behind.neg? = some back ∧
        back.count = -(t.count - Ticks.min.count) := by
      rw [← behindCount]
      apply Ticks.exists_ofCount?
      · rw [behindCount, Ticks.min_count]
        omega
      · rw [behindCount, Ticks.min_count]
        omega
    simp only [add?, add, fromEpoch, if_false, dif_neg, not_false_eq_true, isBehind, isBack,
      Option.bind_eq_bind, Option.bind_some, Option.pure_def, Ticks.lt_iff, count]
    split
    · rfl
    · exact Ticks.ofCount?_eq_some_iff.mpr rfl

-- the same operations overflow elsewhere
example : Ticks.min.neg? = none ∧ Ticks.max.sub? Ticks.min = none := by decide

/--
`time_traits::add` is the exact sum of the tick counts, clamped to the range of the clock.
None of the operations which its evaluation takes overflows, and it is monotone in both
arguments.
-/
theorem TimeTraits.add_saturates (t : TimePoint) (d : Duration) :
    TimeTraits.add? t d = some (TimeTraits.add t d) ∧
    (TimeTraits.add t d).count =
      max Ticks.min.count (min Ticks.max.count (t.count + d.count)) ∧
    Monotone (TimeTraits.add t) ∧
    Monotone fun s => TimeTraits.add s d := by
  refine ⟨add?_eq_some t d, ?_, ?_, ?_⟩
  · rw [add_eq_clamp, Ticks.clamp_count]
  · intro shorter longer ordered
    rw [Ticks.le_iff] at ordered
    rw [add_eq_clamp, add_eq_clamp]
    apply Ticks.clamp_le_clamp
    omega
  · intro earlier later ordered
    rw [Ticks.le_iff] at ordered
    simp only [add_eq_clamp]
    apply Ticks.clamp_le_clamp
    omega

/-- Adding a duration keeps the order of time points. -/
theorem TimeTraits.add_le_add_right {earlier later : TimePoint} (ordered : earlier ≤ later)
    (d : Duration) : TimeTraits.add earlier d ≤ TimeTraits.add later d := by
  rw [Ticks.le_iff] at ordered
  rw [add_eq_clamp, add_eq_clamp]
  apply Ticks.clamp_le_clamp
  omega

/-- A positive duration leads on, unless the end of the clock is reached. -/
theorem TimeTraits.lt_add {t : TimePoint} {d : Duration} (positive : Ticks.zero < d)
    (inTime : t < Ticks.max) : t < TimeTraits.add t d := by
  have := t.lower
  rw [lt_iff_not_ge, Ticks.le_iff] at positive inTime ⊢
  rw [add_count]
  simp only [Ticks.clamp, Ticks.zero_count, Ticks.max_count] at *
  split_ifs <;> omega

/-- Adding a duration which is not negative keeps the order of two time points apart, unless
the end of the clock is reached. -/
theorem TimeTraits.add_le_add_iff {t s : TimePoint} {d : Duration} (forward : Ticks.zero ≤ d) :
    TimeTraits.add t d ≤ TimeTraits.add s d ↔
      t ≤ s ∨ Ticks.max.count ≤ s.count + d.count := by
  have := t.lower
  have := s.lower
  rw [Ticks.le_iff] at forward
  rw [Ticks.le_iff, Ticks.le_iff, add_count, add_count]
  simp only [Ticks.clamp, Ticks.zero_count, Ticks.max_count] at *
  split_ifs <;> omega

end ResourcePool
