import Mathlib.Data.Nat.Notation
import Mathlib.Data.Option.Basic
import Mathlib.Logic.Relation

/-!
# Transition systems with an executable step function

A system is a set of initial states together with a partial step function:
`step state event` is the successor, or `none` when the event is not enabled.
Everything the environment decides (a clock reading, which of several parties
moves, whether a wait times out) is part of the event, so that one definition
replays a concrete run and carries the inductions over all runs.

Properties are stated over reachable states, over the states visited by a run,
and over the steps of a run. `ReachableVia` restricts a system to steps meeting
a condition, and `LeadsTo` says that a state can be continued to another one.
`withHistory` adds a history variable, which observes the steps and never influences
them, and `Simulation` maps the steps of one system to the steps, or to the stuttering,
of another.
-/

namespace Transition

universe u v w x y

structure System (State : Type u) (Event : Type v) where
  Initial : State → Prop
  /-- The successor by an event, if the event is enabled. -/
  step : State → Event → Option State

namespace System

variable {State : Type u} {Event : Type v}

/-- The states reached from an initial state by steps which all meet `condition`. -/
inductive ReachableVia (system : System State Event) (condition : State → Event → Prop) :
    State → Prop where
  | start {state : State} (isInitial : system.Initial state) :
      system.ReachableVia condition state
  | next {state successor : State} {event : Event}
      (reached : system.ReachableVia condition state) (meets : condition state event)
      (stepped : system.step state event = some successor) :
      system.ReachableVia condition successor

def Reachable (system : System State Event) (state : State) : Prop :=
  system.ReachableVia (fun _ _ => True) state

/-- The state in which a list of events leads from `state`, if all are enabled in turn. -/
def execute (system : System State Event) : State → List Event → Option State
  | state, [] => some state
  | state, event :: events =>
      (system.step state event).bind fun successor => system.execute successor events

/-- Every state visited by a run, its first included, satisfies `property`. -/
def Throughout (system : System State Event) (property : State → Prop) :
    State → List Event → Prop
  | state, [] => property state
  | state, event :: events =>
      property state ∧
        ∀ successor, system.step state event = some successor →
          system.Throughout property successor events

/-- Every step of a run satisfies `condition` in the state from which it is taken. -/
def EachStep (system : System State Event) (condition : State → Event → Prop) :
    State → List Event → Prop
  | _, [] => True
  | state, event :: events =>
      condition state event ∧
        ∀ successor, system.step state event = some successor →
          system.EachStep condition successor events

variable {system : System State Event} {condition : State → Event → Prop}

theorem eachStep_cons_iff {state successor : State} {event : Event} {events : List Event}
    (stepped : system.step state event = some successor) :
    system.EachStep condition state (event :: events) ↔
      condition state event ∧ system.EachStep condition successor events := by
  apply and_congr_right fun _ => ⟨fun each => each successor stepped, ?_⟩
  rintro rest other otherStepped
  rw [stepped, Option.some.injEq] at otherStepped
  exact otherStepped ▸ rest

instance decidableEachStep [∀ state event, Decidable (condition state event)] :
    (events : List Event) → (state : State) → Decidable (system.EachStep condition state events)
  | [], _ => .isTrue trivial
  | event :: events, state =>
      match stepped : system.step state event with
      | none =>
          decidable_of_iff (condition state event)
            (by simp [EachStep, stepped])
      | some successor =>
          have := decidableEachStep events successor
          decidable_of_iff _ (eachStep_cons_iff stepped).symm

/-- The invariant rule: what holds initially and is preserved by the admitted steps
holds of every state they reach. -/
theorem ReachableVia.invariant {motive : State → Prop}
    (initially : ∀ state, system.Initial state → motive state)
    (preserved : ∀ state event successor, motive state → condition state event →
      system.step state event = some successor → motive successor)
    {state : State} (reached : system.ReachableVia condition state) : motive state := by
  induction reached with
  | start isInitial => exact initially _ isInitial
  | next _ meets stepped ih => exact preserved _ _ _ ih meets stepped

theorem Reachable.start {state : State} (isInitial : system.Initial state) :
    system.Reachable state :=
  ReachableVia.start isInitial

theorem Reachable.next {state successor : State} {event : Event}
    (reached : system.Reachable state) (stepped : system.step state event = some successor) :
    system.Reachable successor :=
  ReachableVia.next reached trivial stepped

theorem Reachable.invariant {motive : State → Prop}
    (initially : ∀ state, system.Initial state → motive state)
    (preserved : ∀ state event successor, motive state →
      system.step state event = some successor → motive successor)
    {state : State} (reached : system.Reachable state) : motive state :=
  ReachableVia.invariant initially
    (fun state event successor holds _ => preserved state event successor holds) reached

/-- The invariant rule relative to what is already known of every reachable state. -/
theorem Reachable.invariant_of {known motive : State → Prop}
    (always : ∀ state, system.Reachable state → known state)
    (initially : ∀ state, system.Initial state → motive state)
    (preserved : ∀ state event successor, known state → motive state →
      system.step state event = some successor → motive successor)
    {state : State} (reached : system.Reachable state) : motive state := by
  have both : system.Reachable state ∧ motive state :=
    Reachable.invariant (motive := fun state => system.Reachable state ∧ motive state)
      (fun state isInitial => ⟨Reachable.start isInitial, initially state isInitial⟩)
      (fun state event successor holds stepped =>
        ⟨holds.1.next stepped,
          preserved state event successor (always state holds.1) holds.2 stepped⟩)
      reached
  exact both.2

theorem Reachable.execute {events : List Event} {state final : State}
    (reached : system.Reachable state) (ran : system.execute state events = some final) :
    system.Reachable final := by
  induction events generalizing state with
  | nil =>
      simp only [System.execute, Option.some.injEq] at ran
      exact ran ▸ reached
  | cons event events ih =>
      simp only [System.execute, Option.bind_eq_some_iff] at ran
      rcases ran with ⟨successor, stepped, rest⟩
      exact ih (reached.next stepped) rest

theorem execute_reachable {events : List Event} {state final : State}
    (isInitial : system.Initial state) (ran : system.execute state events = some final) :
    system.Reachable final :=
  (Reachable.start isInitial).execute ran

theorem ReachableVia.execute {events : List Event} {state final : State}
    (reached : system.ReachableVia condition state)
    (meets : system.EachStep condition state events)
    (ran : system.execute state events = some final) :
    system.ReachableVia condition final := by
  induction events generalizing state with
  | nil =>
      simp only [System.execute, Option.some.injEq] at ran
      exact ran ▸ reached
  | cons event events ih =>
      simp only [System.execute, Option.bind_eq_some_iff] at ran
      rcases ran with ⟨successor, stepped, rest⟩
      exact ih (.next reached meets.1 stepped) (meets.2 successor stepped) rest

theorem Throughout.first {property : State → Prop} {events : List Event} {state : State}
    (throughout : system.Throughout property state events) : property state := by
  cases events with
  | nil => exact throughout
  | cons event events => exact throughout.1

/-- A property of all visited states is exactly a condition on the steps, when the
steps meeting the condition preserve the property and all others destroy it. The
invariant `known` may be used in both directions. -/
theorem throughout_iff_eachStep {known property : State → Prop}
    (knownPreserved : ∀ state event successor, known state →
      system.step state event = some successor → known successor)
    (preserved : ∀ state event successor, known state → property state →
      condition state event → system.step state event = some successor → property successor)
    (destroyed : ∀ state event successor, known state → property state →
      system.step state event = some successor → property successor → condition state event)
    {events : List Event} {state final : State} (holdsKnown : known state)
    (holds : property state) (ran : system.execute state events = some final) :
    system.Throughout property state events ↔ system.EachStep condition state events := by
  induction events generalizing state with
  | nil => exact ⟨fun _ => trivial, fun _ => holds⟩
  | cons event events ih =>
      simp only [System.execute, Option.bind_eq_some_iff] at ran
      rcases ran with ⟨successor, stepped, rest⟩
      have unique : ∀ other, system.step state event = some other → other = successor := by
        intro other otherStepped
        exact Option.some.inj (otherStepped.symm.trans stepped)
      have knownNext := knownPreserved _ _ _ holdsKnown stepped
      constructor
      · intro throughout
        have tail := throughout.2 successor stepped
        refine ⟨destroyed _ _ _ holdsKnown holds stepped tail.first, ?_⟩
        intro other otherStepped
        rw [unique other otherStepped]
        exact (ih knownNext tail.first rest).mp tail
      · intro each
        have holdsNext := preserved _ _ _ holdsKnown holds each.1 stepped
        refine ⟨holds, ?_⟩
        intro other otherStepped
        rw [unique other otherStepped]
        exact (ih knownNext holdsNext rest).mpr (each.2 successor stepped)

/-- What a condition ensures of one step it ensures of the steps of a run, by an invariant of
the steps which meet it. -/
theorem EachStep.of_preserved {motive : State → Prop} {other : State → Event → Prop}
    (preserved : ∀ state event successor, motive state → condition state event →
      system.step state event = some successor → motive successor)
    (ensures : ∀ state event, motive state → condition state event → other state event)
    {events : List Event} {state : State} (holds : motive state)
    (each : system.EachStep condition state events) : system.EachStep other state events := by
  induction events generalizing state with
  | nil => trivial
  | cons event events ih =>
      refine ⟨ensures _ _ holds each.1, ?_⟩
      intro successor stepped
      exact ih (preserved _ _ _ holds each.1 stepped) (each.2 successor stepped)

/-- Two conditions are met by the steps of the same runs, when they agree on every enabled
step from a state which satisfies an invariant of the steps which meet them. -/
theorem eachStep_iff_of_preserved {motive : State → Prop} {other : State → Event → Prop}
    (preserved : ∀ state event successor, motive state → condition state event →
      system.step state event = some successor → motive successor)
    (agree : ∀ state event successor, motive state →
      system.step state event = some successor → (condition state event ↔ other state event))
    {events : List Event} {state final : State} (holds : motive state)
    (ran : system.execute state events = some final) :
    system.EachStep condition state events ↔ system.EachStep other state events := by
  induction events generalizing state with
  | nil => exact Iff.rfl
  | cons event events ih =>
      simp only [System.execute, Option.bind_eq_some_iff] at ran
      rcases ran with ⟨successor, stepped, rest⟩
      rw [eachStep_cons_iff stepped, eachStep_cons_iff stepped, ← agree _ _ _ holds stepped]
      apply and_congr_right fun meets => ?_
      exact ih (preserved _ _ _ holds meets stepped) rest

/-- Two conditions are met by the steps of the same runs, when they agree on every enabled
step from a state which satisfies an invariant. -/
theorem eachStep_iff_eachStep {motive : State → Prop} {other : State → Event → Prop}
    (preserved : ∀ state event successor, motive state →
      system.step state event = some successor → motive successor)
    (agree : ∀ state event successor, motive state →
      system.step state event = some successor → (condition state event ↔ other state event))
    {events : List Event} {state final : State} (holds : motive state)
    (ran : system.execute state events = some final) :
    system.EachStep condition state events ↔ system.EachStep other state events :=
  eachStep_iff_of_preserved
    (fun state event successor known _ => preserved state event successor known) agree holds ran

theorem ReachableVia.mono {other : State → Event → Prop} {state : State}
    (reached : system.ReachableVia condition state)
    (ensures : ∀ state event, condition state event → other state event) :
    system.ReachableVia other state := by
  induction reached with
  | start isInitial => exact .start isInitial
  | next _ meets stepped ih => exact ih.next (ensures _ _ meets) stepped

/-- Steps which all meet `condition` lead from one state to another. -/
def LeadsTo (system : System State Event) (condition : State → Event → Prop) :
    State → State → Prop :=
  Relation.ReflTransGen fun state successor =>
    ∃ event, condition state event ∧ system.step state event = some successor

theorem LeadsTo.step {state successor : State} {event : Event} (meets : condition state event)
    (stepped : system.step state event = some successor) :
    system.LeadsTo condition state successor :=
  .single ⟨event, meets, stepped⟩

theorem LeadsTo.head {state successor final : State} {event : Event}
    (meets : condition state event) (stepped : system.step state event = some successor)
    (leads : system.LeadsTo condition successor final) : system.LeadsTo condition state final :=
  Relation.ReflTransGen.head ⟨event, meets, stepped⟩ leads

theorem LeadsTo.mono {other : State → Event → Prop} {state final : State}
    (leads : system.LeadsTo condition state final)
    (ensures : ∀ state event, condition state event → other state event) :
    system.LeadsTo other state final :=
  Relation.ReflTransGen.mono
    (fun _ _ ⟨event, meets, stepped⟩ => ⟨event, ensures _ _ meets, stepped⟩) _ _ leads

/-- A run whose events all meet the condition leads from its first state to its last. -/
theorem LeadsTo.execute {events : List Event} {state final : State}
    (meets : ∀ event ∈ events, ∀ state, condition state event)
    (ran : system.execute state events = some final) : system.LeadsTo condition state final := by
  induction events generalizing state with
  | nil =>
      rw [← Option.some.inj ran]
      exact Relation.ReflTransGen.refl
  | cons event events ih =>
      simp only [System.execute, Option.bind_eq_some_iff] at ran
      rcases ran with ⟨successor, stepped, rest⟩
      have leads := ih (fun other member => meets other (List.mem_cons_of_mem _ member)) rest
      exact LeadsTo.head (meets event List.mem_cons_self state) stepped leads

theorem ReachableVia.leadsTo {other : State → Event → Prop} {state final : State}
    (reached : system.ReachableVia condition state)
    (ensures : ∀ state event, other state event → condition state event)
    (leads : system.LeadsTo other state final) : system.ReachableVia condition final := by
  induction leads with
  | refl => exact reached
  | tail _ last ih =>
      rcases last with ⟨event, meets, stepped⟩
      exact ih.next (ensures _ _ meets) stepped

/-- The variant rule: a goal can be reached from every state of an invariant, if steps lead
from each of its states short of the goal to the goal, or to one with a smaller variant. -/
theorem leadsTo_of_variant {motive goal : State → Prop} (variant : State → ℕ)
    (decreases : ∀ state, motive state → ¬goal state →
      ∃ later, system.LeadsTo condition state later ∧
        (goal later ∨ motive later ∧ variant later < variant state))
    {state : State} (holds : motive state) :
    ∃ final, system.LeadsTo condition state final ∧ goal final := by
  induction bound : variant state using Nat.strongRecOn generalizing state with
  | _ size ih =>
      by_cases isGoal : goal state
      · exact ⟨state, .refl, isGoal⟩
      · rcases decreases state holds isGoal with ⟨later, leads, atGoal | ⟨holdsLater, less⟩⟩
        · exact ⟨later, leads, atGoal⟩
        · rcases ih _ (bound ▸ less) holdsLater rfl with ⟨final, continues, atGoal⟩
          exact ⟨final, Relation.ReflTransGen.trans leads continues, atGoal⟩

section History

variable {History : Type w}

/-- A system extended by a variable which records what the steps did. -/
def withHistory (system : System State Event) (begins : State → History → Prop)
    (observe : State → History → Event → History) : System (State × History) Event where
  Initial pair := system.Initial pair.1 ∧ begins pair.1 pair.2
  step pair event :=
    (system.step pair.1 event).map fun successor => (successor, observe pair.1 pair.2 event)

variable {begins : State → History → Prop} {observe : State → History → Event → History}

theorem withHistory_step_eq_some {state successor : State} {history later : History}
    {event : Event} :
    (system.withHistory begins observe).step (state, history) event = some (successor, later) ↔
      system.step state event = some successor ∧ later = observe state history event := by
  simp only [withHistory, Option.map_eq_some_iff, Prod.mk.injEq]
  constructor
  · rintro ⟨other, stepped, rfl, rfl⟩
    exact ⟨stepped, rfl⟩
  · rintro ⟨stepped, rfl⟩
    exact ⟨successor, stepped, rfl, rfl⟩

theorem withHistory_execute {events : List Event} {state final : State}
    (ran : system.execute state events = some final) (history : History) :
    ∃ later, (system.withHistory begins observe).execute (state, history) events =
      some (final, later) := by
  induction events generalizing state history with
  | nil =>
      simp only [System.execute, Option.some.injEq] at ran
      exact ⟨history, by rw [ran, System.execute]⟩
  | cons event events ih =>
      simp only [System.execute, Option.bind_eq_some_iff] at ran
      rcases ran with ⟨successor, stepped, rest⟩
      rcases ih rest (observe state history event) with ⟨later, continued⟩
      refine ⟨later, ?_⟩
      rw [System.execute, withHistory_step_eq_some.mpr ⟨stepped, rfl⟩]
      exact continued

/-- A condition on the states alone does not see the history. -/
theorem eachStep_withHistory_iff {events : List Event} {state final : State}
    {history : History} (ran : system.execute state events = some final) :
    (system.withHistory begins observe).EachStep (fun pair event => condition pair.1 event)
        (state, history) events ↔ system.EachStep condition state events := by
  induction events generalizing state history with
  | nil => exact Iff.rfl
  | cons event events ih =>
      simp only [System.execute, Option.bind_eq_some_iff] at ran
      rcases ran with ⟨successor, stepped, rest⟩
      rw [eachStep_cons_iff stepped,
        eachStep_cons_iff (withHistory_step_eq_some.mpr ⟨stepped, rfl⟩), ih rest]

/-- A history variable restricts no run: every reachable state has a history. -/
theorem ReachableVia.exists_history {state : State}
    (begins_total : ∀ state, system.Initial state → ∃ history, begins state history)
    (reached : system.ReachableVia condition state) :
    ∃ history, (system.withHistory begins observe).ReachableVia
      (fun pair event => condition pair.1 event) (state, history) := by
  induction reached with
  | @start state isInitial =>
      rcases begins_total state isInitial with ⟨history, begun⟩
      exact ⟨history, .start ⟨isInitial, begun⟩⟩
  | @next state successor event _ meets stepped ih =>
      rcases ih with ⟨history, reachedPair⟩
      exact ⟨observe state history event,
        .next reachedPair meets (withHistory_step_eq_some.mpr ⟨stepped, rfl⟩)⟩

end History

end System

variable {Concrete : Type u} {ConcreteEvent : Type v} {Abstract : Type w} {AbstractEvent : Type x}

/-- A forward simulation along a projection of states: each concrete step is one
abstract step, or leaves the projected state alone. -/
structure Simulation (concrete : System Concrete ConcreteEvent)
    (abstract : System Abstract AbstractEvent) where
  project : Concrete → Abstract
  action : Concrete → ConcreteEvent → Option AbstractEvent
  initial : ∀ state, concrete.Initial state → abstract.Initial (project state)
  acts : ∀ state event successor performed, concrete.step state event = some successor →
    action state event = some performed →
      abstract.step (project state) performed = some (project successor)
  stutters : ∀ state event successor, concrete.step state event = some successor →
    action state event = none → project successor = project state

namespace Simulation

variable {concrete : System Concrete ConcreteEvent} {abstract : System Abstract AbstractEvent}

/-- A simulation from what the steps do to the projected state. -/
def ofSteps (project : Concrete → Abstract)
    (action : Concrete → ConcreteEvent → Option AbstractEvent)
    (initial : ∀ state, concrete.Initial state → abstract.Initial (project state))
    (steps : ∀ state event successor, concrete.step state event = some successor →
      (∃ performed, action state event = some performed ∧
        abstract.step (project state) performed = some (project successor)) ∨
      (action state event = none ∧ project successor = project state)) :
    Simulation concrete abstract where
  project := project
  action := action
  initial := initial
  acts := by
    intro state event successor performed stepped performs
    rcases steps state event successor stepped with ⟨other, same, moved⟩ | ⟨stutters, _⟩
    · rw [performs, Option.some.injEq] at same
      exact same ▸ moved
    · rw [performs] at stutters
      contradiction
  stutters := by
    intro state event successor stepped stutters
    rcases steps state event successor stepped with ⟨_, performs, _⟩ | ⟨_, unchanged⟩
    · rw [stutters] at performs
      contradiction
    · exact unchanged

/-- Simulated runs: the projection of a reachable state is reachable, under any
condition on abstract steps which the concrete condition ensures. -/
theorem reachableVia (simulation : Simulation concrete abstract)
    {condition : Concrete → ConcreteEvent → Prop}
    {abstractCondition : Abstract → AbstractEvent → Prop}
    (ensures : ∀ state event performed, condition state event →
      simulation.action state event = some performed →
        abstractCondition (simulation.project state) performed)
    {state : Concrete} (reached : concrete.ReachableVia condition state) :
    abstract.ReachableVia abstractCondition (simulation.project state) := by
  induction reached with
  | start isInitial => exact .start (simulation.initial _ isInitial)
  | @next state successor event _ meets stepped ih =>
      cases performs : simulation.action state event with
      | none => rw [simulation.stutters _ _ _ stepped performs]; exact ih
      | some performed =>
          exact .next ih (ensures _ _ _ meets performs)
            (simulation.acts _ _ _ _ stepped performs)

theorem reachable (simulation : Simulation concrete abstract) {state : Concrete}
    (reached : concrete.Reachable state) : abstract.Reachable (simulation.project state) :=
  simulation.reachableVia (fun _ _ _ _ _ => trivial) reached

variable {History : Type y}

/-- What the concrete steps record when the history of the abstract system is kept
along their actions. -/
def observe (simulation : Simulation concrete abstract)
    (record : Abstract → History → AbstractEvent → History)
    (state : Concrete) (history : History) (event : ConcreteEvent) : History :=
  match simulation.action state event with
  | none => history
  | some performed => record (simulation.project state) history performed

/-- A simulation carries over to the two systems extended by the same history. -/
def withHistory (simulation : Simulation concrete abstract)
    (begins : Abstract → History → Prop)
    (record : Abstract → History → AbstractEvent → History) :
    Simulation
      (concrete.withHistory (fun state => begins (simulation.project state))
        (simulation.observe record))
      (abstract.withHistory begins record) where
  project pair := (simulation.project pair.1, pair.2)
  action pair event := simulation.action pair.1 event
  initial := by
    rintro ⟨state, history⟩ ⟨isInitial, begun⟩
    exact ⟨simulation.initial state isInitial, begun⟩
  acts := by
    rintro ⟨state, history⟩ event ⟨successor, later⟩ performed stepped performs
    rcases System.withHistory_step_eq_some.mp stepped with ⟨moved, laterEq⟩
    apply System.withHistory_step_eq_some.mpr
      ⟨simulation.acts _ _ _ _ moved performs, ?_⟩
    change simulation.action state event = some performed at performs
    simpa only [observe, performs] using laterEq
  stutters := by
    rintro ⟨state, history⟩ event ⟨successor, later⟩ stepped performs
    rcases System.withHistory_step_eq_some.mp stepped with ⟨moved, laterEq⟩
    change simulation.action state event = none at performs
    have same : later = history := by simpa only [observe, performs] using laterEq
    rw [same, simulation.stutters _ _ _ moved performs]

end Simulation

end Transition
