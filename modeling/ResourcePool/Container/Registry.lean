import Mathlib.Data.List.AList
import Mathlib.Data.List.Perm.Basic

/-!
# Counting over association lists

A registry maps names to states, and some of the states hold a resource. These lemmas
say how the resources held change with the state of one name, in terms of their counts.
-/

namespace Container

universe u

variable {Name State : Type u} [DecidableEq Name] {Resource : Type u} [DecidableEq Resource]

/-- The resources held by the states of a registry. -/
def held (holds : State → Option Resource) (registry : AList fun _ : Name => State) :
    List Resource :=
  registry.entries.filterMap fun entry => holds entry.2

variable {holds : State → Option Resource} {registry : AList fun _ : Name => State}
variable {name : Name} {state before : State}

omit [DecidableEq Resource] in
theorem held_perm (found : registry.lookup name = some before) :
    (held holds registry).Perm ((holds before).toList ++ held holds (registry.erase name)) := by
  have member : name ∈ registry.entries.keys := AList.lookup_isSome.mp (by simp [found])
  rcases List.exists_of_kerase member with ⟨value, front, rest, _, split, erased⟩
  have isEntry : ⟨name, value⟩ ∈ registry.entries := by simp [split]
  obtain rfl : value = before :=
    Option.some.inj ((AList.mem_lookup_iff.mpr isEntry).symm.trans found)
  have entries : registry.entries.Perm (⟨name, value⟩ :: (registry.erase name).entries) := by
    change registry.entries.Perm (⟨name, value⟩ :: registry.entries.kerase name)
    rw [erased, split]
    exact List.perm_middle
  refine (entries.filterMap _).trans (List.Perm.of_eq ?_)
  rw [List.filterMap_cons]
  cases holds value <;> rfl

omit [DecidableEq Resource] in
theorem held_insert : held holds (registry.insert name state) =
    (holds state).toList ++ held holds (registry.erase name) := by
  rw [held, AList.entries_insert, List.filterMap_cons]
  cases holds state <;> rfl

omit [DecidableEq Resource] in
theorem held_erase_of_notMem (isNew : name ∉ registry) :
    held holds (registry.erase name) = held holds registry := by
  have unchanged : registry.entries.kerase name = registry.entries :=
    List.kerase_of_notMem_keys isNew
  change List.filterMap _ (registry.entries.kerase name) = held holds registry
  rw [unchanged]
  rfl

omit [DecidableEq Resource] in
theorem held_erase_sublist (holds : State → Option Resource) :
    (held holds (registry.erase name)).Sublist (held holds registry) :=
  (List.kerase_sublist name registry.entries).filterMap _

variable (holds state) in
theorem count_held_replace (found : registry.lookup name = some before) (resource : Resource) :
    (held holds (registry.insert name state)).count resource +
        (holds before).toList.count resource =
      (held holds registry).count resource + (holds state).toList.count resource := by
  rw [held_insert, (held_perm found).count_eq, List.count_append, List.count_append]
  omega

variable (holds state) in
theorem count_held_insert (isNew : name ∉ registry) (resource : Resource) :
    (held holds (registry.insert name state)).count resource =
      (held holds registry).count resource + (holds state).toList.count resource := by
  rw [held_insert, held_erase_of_notMem isNew, List.count_append]
  omega

variable (holds) in
theorem count_held_erase (found : registry.lookup name = some before) (resource : Resource) :
    (held holds (registry.erase name)).count resource + (holds before).toList.count resource =
      (held holds registry).count resource := by
  rw [(held_perm found).count_eq, List.count_append]
  omega

/-- A new name takes over what another one holds. -/
theorem count_held_move (isNew : name ∉ registry) {source : Name} {emptied : State}
    (found : registry.lookup source = some state) (empty : holds emptied = none)
    (resource : Resource) :
    (held holds ((registry.insert source emptied).insert name state)).count resource =
      (held holds registry).count resource := by
  have different : name ≠ source := by
    rintro rfl
    exact isNew (AList.lookup_isSome.mp (by simp [found]))
  have isNewStill : name ∉ registry.insert source emptied := by
    simpa [AList.mem_insert, different] using isNew
  have given := count_held_replace holds emptied found resource
  have taken := count_held_insert holds state isNewStill resource
  rw [empty, Option.toList_none, List.count_nil] at given
  omega

/-- A name takes over what another one holds, and gives up what it held itself. -/
theorem count_held_moveOver {source : Name} {emptied : State}
    (isTarget : registry.lookup name = some before) (found : registry.lookup source = some state)
    (different : name ≠ source) (empty : holds emptied = none) (resource : Resource) :
    (held holds ((registry.insert source emptied).insert name state)).count resource +
        (holds before).toList.count resource =
      (held holds registry).count resource := by
  have isTargetStill : (registry.insert source emptied).lookup name = some before := by
    rw [AList.lookup_insert_ne different]
    exact isTarget
  have given := count_held_replace holds emptied found resource
  have taken := count_held_replace holds state isTargetStill resource
  rw [empty, Option.toList_none, List.count_nil] at given
  omega

omit [DecidableEq Resource] in
theorem mem_held (found : registry.lookup name = some before) {resource : Resource}
    (holding : holds before = some resource) : resource ∈ held holds registry := by
  rw [(held_perm found).mem_iff, holding]
  simp

omit [DecidableEq Resource] in
theorem exists_of_mem_held {resource : Resource} (member : resource ∈ held holds registry) :
    ∃ name state, registry.lookup name = some state ∧ holds state = some resource := by
  rcases List.mem_filterMap.mp member with ⟨entry, isEntry, holding⟩
  exact ⟨entry.1, entry.2, AList.mem_lookup_iff.mpr isEntry, holding⟩

omit [DecidableEq Resource] in
/-- Two names do not hold one resource if nothing is held twice. -/
theorem name_unique_of_held (once : (held holds registry).Nodup) {other : Name}
    {otherState : State} {resource : Resource} (found : registry.lookup name = some state)
    (otherFound : registry.lookup other = some otherState)
    (holding : holds state = some resource) (otherHolding : holds otherState = some resource) :
    name = other := by
  by_contra different
  have apart : (registry.erase name).lookup other = some otherState := by
    rw [AList.lookup_erase_ne (Ne.symm different)]
    exact otherFound
  rw [(held_perm found).nodup_iff, holding, Option.toList, List.singleton_append,
    List.nodup_cons] at once
  exact once.1 (mem_held apart otherHolding)

/-- The resources of the states are held in one of two ways. -/
theorem count_held_split {first second : State → Option Resource}
    (splits : ∀ name state, registry.lookup name = some state → ∀ resource,
      (holds state).toList.count resource =
        (first state).toList.count resource + (second state).toList.count resource)
    (resource : Resource) :
    (held holds registry).count resource =
      (held first registry).count resource + (held second registry).count resource := by
  have cons : ∀ (way : State → Option Resource) (entry : Sigma fun _ : Name => State)
      (entries : List (Sigma fun _ : Name => State)),
      ((entry :: entries).filterMap fun entry => way entry.2) =
        (way entry.2).toList ++ entries.filterMap fun entry => way entry.2 := by
    intro way entry entries
    rw [List.filterMap_cons]
    cases way entry.2 <;> rfl
  have front : ∀ entries : List (Sigma fun _ : Name => State),
      (∀ entry ∈ entries, registry.lookup entry.1 = some entry.2) →
      (entries.filterMap fun entry => holds entry.2).count resource =
        (entries.filterMap fun entry => first entry.2).count resource +
          (entries.filterMap fun entry => second entry.2).count resource := by
    intro entries registered
    induction entries with
    | nil => rfl
    | cons entry entries ih =>
        have := splits entry.1 entry.2 (registered entry List.mem_cons_self) resource
        have := ih fun other member => registered other (List.mem_cons_of_mem _ member)
        simp only [cons, List.count_append]
        omega
  exact front registry.entries fun _ member => AList.mem_lookup_iff.mpr member

theorem forall_insert {property : State → Prop} (isSound : property state)
    (others : ∀ name state, registry.lookup name = some state → property state)
    {other : Name} {value : State}
    (found : (registry.insert name state).lookup other = some value) : property value := by
  by_cases equal : other = name
  · subst equal
    rw [AList.lookup_insert, Option.some.injEq] at found
    exact found ▸ isSound
  · rw [AList.lookup_insert_ne equal] at found
    exact others other value found

end Container
