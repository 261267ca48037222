import ResourcePool.Transition.System

/-!
# Costs over whole runs

The total charge of a run is what its steps cost together, each in the state from which it
is taken. A single step may cost as much as the state has grown before. `totalCharge_le` is
the potential method: if each step pays what it costs out of a decrease of the potential and
a grant for its event, then the grants pay for the run.
-/

namespace Transition.System

universe u v

variable {State : Type u} {Event : Type v} {system : System State Event}

def totalCharge (system : System State Event) (charge : State → Event → ℕ) :
    State → List Event → ℕ
  | _, [] => 0
  | state, event :: events =>
      charge state event +
        match system.step state event with
        | none => 0
        | some successor => system.totalCharge charge successor events

/-- What the events of a run are granted together. -/
def totalGrant (grant : Event → ℕ) : List Event → ℕ
  | [] => 0
  | event :: events => grant event + totalGrant grant events

theorem totalCharge_le {charge : State → Event → ℕ} {known : State → Prop}
    {potential : State → ℕ} {grant : Event → ℕ}
    (preserved : ∀ state event successor, known state →
      system.step state event = some successor → known successor)
    (pays : ∀ state event successor, known state → system.step state event = some successor →
      charge state event + potential successor ≤ potential state + grant event)
    {events : List Event} {state final : State} (holds : known state)
    (ran : system.execute state events = some final) :
    system.totalCharge charge state events + potential final ≤
      potential state + totalGrant grant events := by
  induction events generalizing state with
  | nil =>
      simp only [execute, Option.some.injEq] at ran
      simp [totalCharge, totalGrant, ran]
  | cons event events ih =>
      simp only [execute, Option.bind_eq_some_iff] at ran
      rcases ran with ⟨successor, stepped, rest⟩
      have paid := pays state event successor holds stepped
      have others := ih (preserved state event successor holds stepped) rest
      simp only [totalCharge, totalGrant, stepped]
      omega

end Transition.System
