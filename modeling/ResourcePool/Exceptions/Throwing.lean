/-!
# Computations which may throw

A computation on a state returns a value, or throws at one of its calls; in both cases it
leaves the state which it has reached, so that what was done before a throw is not undone.
A computation whose behaviour is undefined has no result.

Which call throws is an argument of the computation: `attempt` marks the call, and throws
there if it is the failing one. `Returns` and `Throws` are inverted construct by construct.
-/

namespace Exceptions

universe u

abbrev Throwing (State Call : Type u) : Type u → Type u := ExceptT Call (StateT State Option)

namespace Throwing

variable {State Part Call Other α β : Type u}

/-- The computation returns a value and leaves the state `after`. -/
def Returns (computation : Throwing State Call α) (state : State) (value : α)
    (after : State) : Prop :=
  computation.run.run state = some (.ok value, after)

/-- The computation throws at a call and leaves the state `after`. -/
def Throws (computation : Throwing State Call α) (state : State) (call : Call)
    (after : State) : Prop :=
  computation.run.run state = some (.error call, after)

/-- The state which a computation leaves if it throws. -/
def thrown (computation : Throwing State Call α) (state : State) : Option State :=
  match computation.run.run state with
  | some (.error _, after) => some after
  | _ => none

/-- A call which has no effect if it throws. -/
def attempt [DecidableEq Call] (failing : Option Call) (call : Call) :
    Throwing State Call PUnit :=
  if failing = some call then throw call else pure ⟨⟩

/-- A value whose computation may be undefined. -/
def ofOption (value : Option α) : Throwing State Call α :=
  fun state => value.map fun value => (.ok value, state)

/-- A computation on a part of the state. -/
def within (part : State → Part) (replace : State → Part → State)
    (computation : Throwing Part Call α) : Throwing State Call α :=
  fun state => (computation.run.run (part state)).map fun (result, after) =>
    (result, replace state after)

/-- A computation whose calls get other names. -/
def relabel (label : Call → Other) (computation : Throwing State Call α) :
    Throwing State Other α :=
  fun state => (computation.run.run state).map fun
    | (.ok value, after) => (.ok value, after)
    | (.error call, after) => (.error (label call), after)

variable {state after : State} {value result : α} {call thrown : Call}

theorem thrown_eq_some {computation : Throwing State Call α} :
    computation.thrown state = some after ↔ ∃ call, computation.Throws state call after := by
  simp only [thrown, Throws]
  split
  · next call reached ran =>
      simp only [ran, Option.some.injEq, Prod.mk.injEq, Except.error.injEq]
      exact ⟨fun same => ⟨call, rfl, same⟩, fun ⟨_, _, same⟩ => same⟩
  · next returns =>
      simp only [reduceCtorEq, false_iff, not_exists]
      exact fun call ran => returns call after ran

/-! ### Returning -/

@[simp]
theorem returns_pure :
    (pure result : Throwing State Call α).Returns state value after ↔
      value = result ∧ after = state := by
  change some (Except.ok result, state) = some (Except.ok value, after) ↔ _
  simp [eq_comm]

@[simp]
theorem returns_set {value : PUnit} {next : State} :
    (set next : Throwing State Call PUnit).Returns state value after ↔ after = next := by
  change some (Except.ok PUnit.unit, next) = some (Except.ok value, after) ↔ _
  simp [eq_comm]

@[simp]
theorem returns_get_bind {rest : State → Throwing State Call α} :
    (get >>= rest).Returns state value after ↔ (rest state).Returns state value after :=
  Iff.rfl

@[simp]
theorem returns_set_bind {next : State} {rest : PUnit → Throwing State Call α} :
    (set next >>= rest).Returns state value after ↔ (rest ⟨⟩).Returns next value after :=
  Iff.rfl

@[simp]
theorem returns_attempt_bind [DecidableEq Call] {failing : Option Call}
    {rest : PUnit → Throwing State Call α} :
    (attempt failing call >>= rest).Returns state value after ↔
      failing ≠ some call ∧ (rest ⟨⟩).Returns state value after := by
  rw [attempt]
  split
  · next fails =>
      change some (Except.error call, state) = some (Except.ok value, after) ↔ _
      simp [fails]
  · next succeeds =>
      rw [pure_bind]
      simp [succeeds]

@[simp]
theorem returns_ofOption_bind {computed : Option α} {rest : α → Throwing State Call β}
    {value : β} :
    (ofOption computed >>= rest).Returns state value after ↔
      ∃ result, computed = some result ∧ (rest result).Returns state value after := by
  cases computed with
  | none =>
      change none = some (Except.ok value, after) ↔ _
      simp
  | some result =>
      change (rest result).Returns state value after ↔ _
      simp

theorem returns_bind {first : Throwing State Call α} {rest : α → Throwing State Call β}
    {value : β} :
    (first >>= rest).Returns state value after ↔
      ∃ result middle, first.Returns state result middle ∧
        (rest result).Returns middle value after := by
  change (first.run.run state).bind
    (fun reached => (ExceptT.bindCont rest reached.1).run reached.2) = _ ↔ _
  simp only [Returns, Option.bind_eq_some_iff]
  constructor
  · rintro ⟨⟨outcome, middle⟩, ran, continued⟩
    cases outcome with
    | error call =>
        change some (Except.error call, middle) = some (Except.ok value, after) at continued
        simp at continued
    | ok result => exact ⟨result, middle, ran, continued⟩
  · rintro ⟨result, middle, ran, continued⟩
    exact ⟨(.ok result, middle), ran, continued⟩

@[simp]
theorem returns_within {part : State → Part} {replace : State → Part → State}
    {computation : Throwing Part Call α} :
    (within part replace computation).Returns state value after ↔
      ∃ reached, computation.Returns (part state) value reached ∧
        after = replace state reached := by
  change (computation.run.run (part state)).map _ = some (Except.ok value, after) ↔ _
  simp only [Returns, Option.map_eq_some_iff, Prod.mk.injEq]
  constructor
  · rintro ⟨⟨outcome, reached⟩, ran, rfl, rfl⟩
    exact ⟨reached, ran, rfl⟩
  · rintro ⟨reached, ran, rfl⟩
    exact ⟨(.ok value, reached), ran, rfl, rfl⟩

@[simp]
theorem returns_relabel {label : Call → Other} {computation : Throwing State Call α} :
    (relabel label computation).Returns state value after ↔
      computation.Returns state value after := by
  change (computation.run.run state).map _ = some (Except.ok value, after) ↔ _
  simp only [Returns, Option.map_eq_some_iff]
  constructor
  · rintro ⟨⟨outcome, reached⟩, ran, returned⟩
    cases outcome with
    | error call => simp at returned
    | ok result =>
        simp only [Prod.mk.injEq, Except.ok.injEq] at returned
        rcases returned with ⟨rfl, rfl⟩
        exact ran
  · intro ran
    exact ⟨(.ok value, after), ran, rfl⟩

/-! ### Throwing -/

@[simp]
theorem not_throws_pure : ¬(pure value : Throwing State Call α).Throws state call after := by
  change ¬some (Except.ok value, state) = some (Except.error call, after)
  simp

@[simp]
theorem not_throws_set {next : State} :
    ¬(set next : Throwing State Call PUnit).Throws state call after := by
  change ¬some (Except.ok PUnit.unit, next) = some (Except.error call, after)
  simp

@[simp]
theorem throws_get_bind {rest : State → Throwing State Call α} :
    (get >>= rest).Throws state call after ↔ (rest state).Throws state call after :=
  Iff.rfl

@[simp]
theorem throws_set_bind {next : State} {rest : PUnit → Throwing State Call α} :
    (set next >>= rest).Throws state call after ↔ (rest ⟨⟩).Throws next call after :=
  Iff.rfl

@[simp]
theorem throws_attempt_bind [DecidableEq Call] {failing : Option Call}
    {rest : PUnit → Throwing State Call α} :
    (attempt failing call >>= rest).Throws state thrown after ↔
      (failing = some call ∧ thrown = call ∧ after = state) ∨
        failing ≠ some call ∧ (rest ⟨⟩).Throws state thrown after := by
  rw [attempt]
  split
  · next fails =>
      change some (Except.error call, state) = some (Except.error thrown, after) ↔ _
      simp [fails, eq_comm]
  · next succeeds =>
      rw [pure_bind]
      simp [succeeds]

@[simp]
theorem throws_ofOption_bind {computed : Option α} {rest : α → Throwing State Call β} :
    (ofOption computed >>= rest).Throws state call after ↔
      ∃ result, computed = some result ∧ (rest result).Throws state call after := by
  cases computed with
  | none =>
      change none = some (Except.error call, after) ↔ _
      simp
  | some result =>
      change (rest result).Throws state call after ↔ _
      simp

/-- A sequence throws in its first part, or in the rest from the state which the first part
has reached. -/
theorem throws_bind {first : Throwing State Call α} {rest : α → Throwing State Call β} :
    (first >>= rest).Throws state call after ↔
      first.Throws state call after ∨
        ∃ result middle, first.Returns state result middle ∧
          (rest result).Throws middle call after := by
  change (first.run.run state).bind
    (fun reached => (ExceptT.bindCont rest reached.1).run reached.2) = _ ↔ _
  simp only [Returns, Throws, Option.bind_eq_some_iff]
  constructor
  · rintro ⟨⟨outcome, middle⟩, ran, continued⟩
    cases outcome with
    | error early =>
        change some (Except.error early, middle) = some (Except.error call, after) at continued
        simp only [Option.some.injEq, Prod.mk.injEq, Except.error.injEq] at continued
        rcases continued with ⟨rfl, rfl⟩
        exact Or.inl ran
    | ok result => exact Or.inr ⟨result, middle, ran, continued⟩
  · rintro (ran | ⟨result, middle, ran, continued⟩)
    · exact ⟨(.error call, after), ran, rfl⟩
    · exact ⟨(.ok result, middle), ran, continued⟩

@[simp]
theorem throws_within {part : State → Part} {replace : State → Part → State}
    {computation : Throwing Part Call α} :
    (within part replace computation).Throws state call after ↔
      ∃ reached, computation.Throws (part state) call reached ∧
        after = replace state reached := by
  change (computation.run.run (part state)).map _ = some (Except.error call, after) ↔ _
  simp only [Throws, Option.map_eq_some_iff, Prod.mk.injEq]
  constructor
  · rintro ⟨⟨outcome, reached⟩, ran, rfl, rfl⟩
    exact ⟨reached, ran, rfl⟩
  · rintro ⟨reached, ran, rfl⟩
    exact ⟨(.error call, reached), ran, rfl, rfl⟩

@[simp]
theorem throws_relabel {label : Call → Other} {computation : Throwing State Call α}
    {thrown : Other} :
    (relabel label computation).Throws state thrown after ↔
      ∃ call, computation.Throws state call after ∧ thrown = label call := by
  change (computation.run.run state).map _ = some (Except.error thrown, after) ↔ _
  simp only [Throws, Option.map_eq_some_iff]
  constructor
  · rintro ⟨⟨outcome, reached⟩, ran, returned⟩
    cases outcome with
    | error call =>
        simp only [Prod.mk.injEq, Except.error.injEq] at returned
        exact ⟨call, returned.2 ▸ ran, returned.1.symm⟩
    | ok result => simp at returned
  · rintro ⟨call, ran, rfl⟩
    exact ⟨(.error call, after), ran, rfl⟩

end Throwing

end Exceptions
