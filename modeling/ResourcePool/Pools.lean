import Mathlib.Data.List.AList
import ResourcePool.Async.PoolImpl
import ResourcePool.Container.Registry
import ResourcePool.Sync.PoolImpl
import ResourcePool.Transition.System

/-!
# The objects of type `pool`

`sync::pool` and `async::pool` own an implementation by a shared pointer, and have the same
special members: the moves are defaulted, and the destructor calls `disable`. Handles and
handlers may share an implementation, but do not count as its owners.

A pool which is assigned to lets go of its implementation without a call of `disable`.
-/

namespace ResourcePool

open Container Transition

abbrev PoolId := ℕ

/-- The identity of an implementation, to which the pointers of the pools point. -/
abbrev ImplId := ℕ

/-- An implementation, with the number of calls of `disable` on it. -/
structure Implementation (Impl : Type) where
  impl : Impl
  disableCalls : ℕ

/-- All implementations which were ever made, and the pools with their pointers `_impl`. -/
structure Pools (Impl : Type) where
  implementations : List (Implementation Impl)
  pools : AList fun _ : PoolId => Option ImplId

/-- The special members of a pool, for the constructors with a new implementation. -/
inductive PoolEvent (Impl : Type) where
  | construct (pool : PoolId) (impl : Impl)
  | moveConstruct (pool other : PoolId)
  | moveAssign (pool other : PoolId)
  | destroy (pool : PoolId)

namespace Pools

variable {Impl : Type}

def empty : Pools Impl := ⟨[], ∅⟩

/-- `_impl->disable()`. -/
def callDisable (disable : Impl → Impl) (implementation : Implementation Impl) :
    Implementation Impl :=
  ⟨disable implementation.impl, implementation.disableCalls + 1⟩

/-- The destructor. -/
def destroy (disable : Impl → Impl) (s : Pools Impl) (pool : PoolId) : Option ImplId → Pools Impl
  | none => ⟨s.implementations, s.pools.erase pool⟩
  | some impl => ⟨s.implementations.modify impl (callDisable disable), s.pools.erase pool⟩

/-- A move leaves a null pointer. A pool which is assigned to itself has its own back. -/
def step (disable : Impl → Impl) (s : Pools Impl) : PoolEvent Impl → Option (Pools Impl)
  | .construct pool impl =>
      if pool ∈ s.pools then none
      else
        some ⟨s.implementations ++ [⟨impl, 0⟩],
          s.pools.insert pool (some s.implementations.length)⟩
  | .moveConstruct pool other =>
      if pool ∈ s.pools then none
      else
        (s.pools.lookup other).map fun impl =>
          { s with pools := (s.pools.insert other none).insert pool impl }
  | .moveAssign pool other =>
      if pool ∈ s.pools then
        (s.pools.lookup other).map fun impl =>
          { s with pools := (s.pools.insert other none).insert pool impl }
      else none
  | .destroy pool => (s.pools.lookup pool).map (s.destroy disable pool)

def system (disable : Impl → Impl) : System (Pools Impl) (PoolEvent Impl) where
  Initial s := s = empty
  step := step disable

/-- How many pools own an implementation. -/
def owners (s : Pools Impl) (impl : ImplId) : ℕ := (held id s.pools).count impl

/-- Each implementation is owned by one pool and was never disabled, or is owned by none and
was disabled once. -/
def DisabledOnce (s : Pools Impl) : Prop :=
  ∀ impl implementation, s.implementations[impl]? = some implementation →
    (s.owners impl = 1 ∧ implementation.disableCalls = 0) ∨
      (s.owners impl = 0 ∧ implementation.disableCalls = 1)

/-- A pool is assigned to only by itself, or after it was moved from. -/
def AssignsMovedFrom (s : Pools Impl) : PoolEvent Impl → Prop
  | .moveAssign pool other => pool = other ∨ s.pools.lookup pool = some none
  | .construct .. | .moveConstruct .. | .destroy _ => True

instance : DecidableRel (AssignsMovedFrom : Pools Impl → PoolEvent Impl → Prop)
  | s, .moveAssign pool other =>
      inferInstanceAs (Decidable (pool = other ∨ s.pools.lookup pool = some none))
  | _, .construct .. | _, .moveConstruct .. | _, .destroy _ => .isTrue trivial

/-- What a special member does to the implementations and their owners. -/
inductive Effect (disable : Impl → Impl) (s after : Pools Impl) : PoolEvent Impl → Prop where
  | constructed {pool : PoolId} {impl : Impl}
      (made : after.implementations = s.implementations ++ [⟨impl, 0⟩])
      (owned : ∀ other, after.owners other =
        s.owners other + [s.implementations.length].count other) :
      Effect disable s after (.construct pool impl)
  | moved {event : PoolEvent Impl} (assigns : s.AssignsMovedFrom event)
      (same : after.implementations = s.implementations)
      (owned : ∀ other, after.owners other = s.owners other) : Effect disable s after event
  | dropped {pool source : PoolId} {impl : ImplId} (different : pool ≠ source)
      (isLive : s.pools.lookup pool = some (some impl))
      (same : after.implementations = s.implementations)
      (owned : ∀ other, after.owners other + [impl].count other = s.owners other) :
      Effect disable s after (.moveAssign pool source)
  | destroyed {pool : PoolId} {impl : ImplId}
      (disabled : after.implementations = s.implementations.modify impl (callDisable disable))
      (owned : ∀ other, after.owners other + [impl].count other = s.owners other) :
      Effect disable s after (.destroy pool)

variable {disable : Impl → Impl} {s after : Pools Impl}

theorem effect_of_step {event : PoolEvent Impl} (stepped : s.step disable event = some after) :
    Effect disable s after event := by
  cases event with
  | construct pool impl =>
      simp only [step, Option.ite_none_left_eq_some, Option.some.injEq] at stepped
      rcases stepped with ⟨isNew, rfl⟩
      exact .constructed rfl (count_held_insert id (some s.implementations.length) isNew)
  | moveConstruct pool other =>
      simp only [step, Option.ite_none_left_eq_some, Option.map_eq_some_iff] at stepped
      rcases stepped with ⟨isNew, impl, isOther, rfl⟩
      exact .moved trivial rfl (count_held_move isNew isOther rfl)
  | moveAssign pool other =>
      simp only [step, Option.ite_none_right_eq_some, Option.map_eq_some_iff] at stepped
      rcases stepped with ⟨isPool, impl, isOther, rfl⟩
      rcases Option.isSome_iff_exists.mp (AList.lookup_isSome.mpr isPool) with ⟨own, isOwn⟩
      by_cases same : pool = other
      · subst same
        refine .moved (Or.inl rfl) rfl ?_
        intro counted
        have back : (s.pools.insert pool none).insert pool impl = s.pools.insert pool impl :=
          AList.insert_insert _
        have replaced := count_held_replace id impl isOther counted
        simp only [owners, back]
        omega
      · have owned : ∀ counted,
            (held id ((s.pools.insert other none).insert pool impl)).count counted +
              own.toList.count counted = s.owners counted :=
          count_held_moveOver isOwn isOther same rfl
        cases own with
        | none => exact .moved (Or.inr isOwn) rfl owned
        | some own => exact .dropped same isOwn rfl owned
  | destroy pool =>
      simp only [step, Option.map_eq_some_iff] at stepped
      rcases stepped with ⟨impl, isPool, rfl⟩
      have owned := count_held_erase id isPool
      cases impl with
      | none => exact .moved trivial rfl owned
      | some impl => exact .destroyed rfl owned

/-- Only implementations which were made have owners. -/
def OwnsMade (s : Pools Impl) : Prop :=
  ∀ impl, s.implementations.length ≤ impl → s.owners impl = 0

theorem Effect.ownsMade {event : PoolEvent Impl} (ownsMade : s.OwnsMade)
    (effect : Effect disable s after event) : after.OwnsMade := by
  intro impl later
  cases effect with
  | constructed made owned =>
      rw [made, List.length_append, List.length_singleton] at later
      have different : s.implementations.length ≠ impl := by omega
      rw [owned, ownsMade impl (by omega), List.count_singleton, if_neg (by simpa using different)]
  | moved assigns same owned =>
      rw [owned]
      exact ownsMade impl (same ▸ later)
  | dropped different isLive same owned =>
      have nobody := ownsMade impl (same ▸ later)
      have := owned impl
      omega
  | destroyed disabled owned =>
      rw [disabled, List.length_modify] at later
      have nobody := ownsMade impl later
      have := owned impl
      omega

theorem Effect.disabledOnce {event : PoolEvent Impl} (ownsMade : s.OwnsMade)
    (once : s.DisabledOnce) (assigns : s.AssignsMovedFrom event)
    (effect : Effect disable s after event) : after.DisabledOnce := by
  intro impl implementation isMade
  cases effect with
  | constructed made owned =>
      rw [made] at isMade
      rw [owned]
      by_cases isNew : impl = s.implementations.length
      · subst isNew
        rw [List.getElem?_concat_length, Option.some.injEq] at isMade
        subst isMade
        left
        rw [ownsMade _ le_rfl, List.count_singleton_self]
        exact ⟨rfl, rfl⟩
      · have older : impl < s.implementations.length := by
          rcases List.getElem?_eq_some_iff.mp isMade with ⟨inRange, _⟩
          rw [List.length_append, List.length_singleton] at inRange
          exact Nat.lt_of_le_of_ne (Nat.le_of_lt_succ inRange) isNew
        rw [List.getElem?_append_left older] at isMade
        rw [List.count_singleton, if_neg (by simpa using Ne.symm isNew)]
        exact once impl implementation isMade
  | moved _ same owned =>
      rw [same] at isMade
      rw [owned]
      exact once impl implementation isMade
  | dropped different isLive same owned =>
      rcases assigns with same | isMovedFrom
      · exact absurd same different
      · simp [isLive] at isMovedFrom
  | @destroyed _ abandoned disabled owned =>
      have counted := owned impl
      rw [disabled, List.getElem?_modify] at isMade
      rw [List.count_singleton] at counted
      by_cases isAbandoned : abandoned = impl
      · subst isAbandoned
        simp only [if_true, Option.map_eq_map, Option.map_eq_some_iff] at isMade
        rcases isMade with ⟨before, isBefore, rfl⟩
        rw [if_pos (by simp)] at counted
        rcases once abandoned before isBefore with ⟨owner, never⟩ | ⟨nobody, _⟩
        · right
          exact ⟨by omega, by simp [callDisable, never]⟩
        · omega
      · simp only [if_neg isAbandoned, Option.map_eq_map, Option.map_id'] at isMade
        rw [if_neg (by simpa using isAbandoned)] at counted
        have unchanged := once impl implementation isMade
        omega

/-- An implementation which is let go by an assignment is never disabled. -/
theorem Effect.assignsMovedFrom {event : PoolEvent Impl} (ownsMade : s.OwnsMade)
    (once : s.DisabledOnce) (onceAfter : after.DisabledOnce)
    (effect : Effect disable s after event) : s.AssignsMovedFrom event := by
  cases effect with
  | constructed => trivial
  | moved assigns => exact assigns
  | @dropped pool source impl different isLive same owned =>
      have counted := owned impl
      rw [List.count_singleton_self] at counted
      have isMade : impl < s.implementations.length := by
        by_contra later
        have nobody := ownsMade impl (Nat.le_of_not_lt later)
        omega
      have before := once impl _ (List.getElem?_eq_getElem isMade)
      have later := onceAfter impl s.implementations[impl] (by simp [same, isMade])
      omega
  | destroyed => trivial

/-- The property holds throughout a run just if no live pool is assigned to by another. -/
theorem throughout_disabledOnce_iff {final : Pools Impl} {events : List (PoolEvent Impl)}
    (ran : (system disable).execute empty events = some final) :
    (system disable).Throughout DisabledOnce empty events ↔
      (system disable).EachStep AssignsMovedFrom empty events := by
  have known : ∀ (before : Pools Impl) (event : PoolEvent Impl) (later : Pools Impl),
      before.OwnsMade → (system disable).step before event = some later → later.OwnsMade :=
    fun _ _ _ ownsMade stepped => (effect_of_step stepped).ownsMade ownsMade
  apply System.throughout_iff_eachStep known ?_ ?_ ?_ ?_ ran
  · intro before event later ownsMade once assigns stepped
    exact (effect_of_step stepped).disabledOnce ownsMade once assigns
  · intro before event later ownsMade once stepped onceAfter
    exact (effect_of_step stepped).assignsMovedFrom ownsMade once onceAfter
  · intro impl _
    rfl
  · intro impl implementation isMade
    contradiction

/-- The pools of type `sync::pool`. -/
def sync (V : Type) : System (Pools (Sync.PoolImpl V)) (PoolEvent (Sync.PoolImpl V)) :=
  system Sync.PoolImpl.disable

/-- The pools of type `async::pool`. What their implementations dispatch is left out. -/
def async (V Request IoContext : Type) [DecidableEq IoContext] :
    System (Pools (Async.PoolImpl V Request IoContext))
      (PoolEvent (Async.PoolImpl V Request IoContext)) :=
  system fun impl => impl.disable.1

/--
For both types of pools, throughout a run each implementation is owned by one pool and was
never disabled, or is owned by none and was disabled once, just if no pool of the run is
assigned to by another one while it has an implementation.
-/
theorem disabledOnce_iff_assignsMovedFrom (V Request IoContext : Type) [DecidableEq IoContext] :
    (∀ events final, (sync V).execute empty events = some final →
      ((sync V).Throughout DisabledOnce empty events ↔
        (sync V).EachStep AssignsMovedFrom empty events)) ∧
    ∀ events final, (async V Request IoContext).execute empty events = some final →
      ((async V Request IoContext).Throughout DisabledOnce empty events ↔
        (async V Request IoContext).EachStep AssignsMovedFrom empty events) :=
  ⟨fun _ _ ran => throughout_disabledOnce_iff ran, fun _ _ ran => throughout_disabledOnce_iff ran⟩

/-- Two pools, the second of which takes over for the first. -/
def replacedRun {Impl : Type} (first second : Impl) (movedFrom : Bool) : List (PoolEvent Impl) :=
  .construct 0 first :: (if movedFrom then [.moveConstruct 2 0, .destroy 2] else []) ++
    [.construct 1 second, .moveAssign 0 1, .destroy 1, .moveAssign 0 0, .destroy 0]

def syncImpl : Sync.PoolImpl ℕ := ⟨Storage.empty 1 Ticks.max Ticks.max, 1, false⟩

def asyncImpl : Async.PoolImpl ℕ ℕ ℕ :=
  ⟨Storage.empty 1 Ticks.max Ticks.max, 1, Async.CoherentQueue.constructed 1, false⟩

theorem disabledOnce_replaced :
    (sync ℕ).Throughout DisabledOnce empty (replacedRun syncImpl syncImpl true) ∧
      (async ℕ ℕ ℕ).Throughout DisabledOnce empty (replacedRun asyncImpl asyncImpl true) := by
  have syncRan : ((sync ℕ).execute empty (replacedRun syncImpl syncImpl true)).isSome := rfl
  have asyncRan :
      ((async ℕ ℕ ℕ).execute empty (replacedRun asyncImpl asyncImpl true)).isSome := rfl
  have both := disabledOnce_iff_assignsMovedFrom ℕ ℕ ℕ
  constructor
  · exact (both.1 _ _ (Option.some_get syncRan).symm).mpr (by decide)
  · exact (both.2 _ _ (Option.some_get asyncRan).symm).mpr (by decide)

/-- The implementation of a pool which is assigned to while it is live belongs to nobody, and
was never disabled. -/
theorem abandons_enabled :
    ∃ s t, (sync ℕ).execute empty (replacedRun syncImpl syncImpl false) = some s ∧
      s.owners 0 = 0 ∧ s.implementations[0]? = some ⟨syncImpl, 0⟩ ∧ ¬s.DisabledOnce ∧
      (async ℕ ℕ ℕ).execute empty (replacedRun asyncImpl asyncImpl false) = some t ∧
      t.owners 0 = 0 ∧ t.implementations[0]? = some ⟨asyncImpl, 0⟩ ∧ ¬t.DisabledOnce := by
  refine ⟨_, _, rfl, rfl, rfl, ?_, rfl, rfl, rfl, ?_⟩
  · intro once
    exact absurd (once 0 _ rfl) (by decide)
  · intro once
    exact absurd (once 0 _ rfl) (by decide)

end Pools

end ResourcePool
