import ResourcePool.Concurrency.Threads

/-!
# What calls are about to do

A call which has only to lock mutexes before an access is about to make this access, and
remains so, whatever other threads do, until it makes it.
-/

namespace Concurrency

variable {Shared Mutex Task Context Routine : Type}

/-- What these programs come to next, up to mutexes, is an access. -/
def Intention (intends : Program Shared Mutex Task Routine → Prop) : Prop :=
  ∀ program, intends program →
    (∃ mutex next, program = .lock mutex next ∧ intends next) ∨
      ∃ effect next, program = .access effect next

/-- A call is at such a program. -/
def State.Intends (s : State Shared Mutex Task Context Routine)
    (intends : Program Shared Mutex Task Routine → Prop) : Prop :=
  ∃ thread routine program, .executing routine program ∈ s.stack thread ∧ intends program

namespace State

variable {s after : State Shared Mutex Task Context Routine} {thread : ThreadId}
  {intends : Program Shared Mutex Task Routine → Prop}

theorem Intends.move {frames : List (Frame Shared Mutex Task Context Routine)}
    (intended : s.Intends intends)
    (moved : after.stack = Function.update s.stack thread frames)
    (keeps : ∀ routine program, .executing routine program ∈ s.stack thread → intends program →
      ∃ routine program, .executing routine program ∈ frames ∧ intends program) :
    after.Intends intends := by
  rcases intended with ⟨other, routine, program, member, holds⟩
  by_cases same : other = thread
  · subst same
    rcases keeps routine program member holds with ⟨laterRoutine, later, inFrames, stillHolds⟩
    refine ⟨other, laterRoutine, later, ?_, stillHolds⟩
    rwa [moved, Function.update_self]
  · refine ⟨other, routine, program, ?_, holds⟩
    rwa [moved, Function.update_of_ne same]

/-- The frames remain, below a new one. -/
theorem Intends.push {frame : Frame Shared Mutex Task Context Routine}
    (intended : s.Intends intends)
    (moved : after.stack = Function.update s.stack thread (frame :: s.stack thread)) :
    after.Intends intends :=
  intended.move moved fun routine program member holds =>
    ⟨routine, program, List.mem_cons_of_mem _ member, holds⟩

/-- A frame which intends nothing goes. -/
theorem Intends.pop {frame : Frame Shared Mutex Task Context Routine}
    {below frames : List (Frame Shared Mutex Task Context Routine)}
    (intended : s.Intends intends) (atFrame : s.stack thread = frame :: below)
    (moved : after.stack = Function.update s.stack thread frames) (kept : below ⊆ frames)
    (idle : ∀ routine program, frame = .executing routine program → ¬intends program) :
    after.Intends intends := by
  apply intended.move moved
  intro routine program member holds
  rw [atFrame] at member
  rcases List.mem_cons.mp member with isFrame | deeper
  · exact absurd holds (idle routine program isFrame.symm)
  · exact ⟨routine, program, kept deeper, holds⟩

variable [DecidableEq Mutex] [DecidableEq Context]
  {code : Code Shared Mutex Task Context Routine}

/-- What a step does to the shared state: it is an access, or leaves the state and all
intentions as they are. -/
theorem step_access (intention : Intention intends) {event : Event Context Routine}
    (stepped : s.step code event = some after) :
    (∃ thread routine effect next below,
      s.stack thread = .executing routine (.access effect next) :: below ∧
      effect s.shared = some after.shared ∧
      after.stack = Function.update s.stack thread
        (.executing routine (next s.shared) :: below) ∧
      (s.Intends intends → after.Intends intends ∨ intends (.access effect next))) ∨
    (after.shared = s.shared ∧ (s.Intends intends → after.Intends intends)) := by
  cases event with
  | call thread routine =>
      simp only [step, Option.ite_none_right_eq_some, Option.some.injEq] at stepped
      rcases stepped with ⟨_, rfl⟩
      exact Or.inr ⟨rfl, fun intended => intended.push rfl⟩
  | enter thread context =>
      simp only [step, Option.ite_none_right_eq_some, Option.some.injEq] at stepped
      rcases stepped with ⟨_, rfl⟩
      exact Or.inr ⟨rfl, fun intended => intended.push rfl⟩
  | leave thread =>
      simp only [step] at stepped
      split at stepped
      · next atFrame =>
          rcases Option.some.inj stepped with rfl
          refine Or.inr ⟨rfl, fun intended => intended.pop atFrame rfl (List.Subset.refl _) ?_⟩
          simp
      · contradiction
  | handle thread index =>
      simp only [step] at stepped
      split at stepped
      · next atFrame _ =>
          simp only [Option.ite_none_right_eq_some, Option.some.injEq] at stepped
          rcases stepped with ⟨_, rfl⟩
          rw [← atFrame]
          exact Or.inr ⟨rfl, fun intended => intended.push rfl⟩
      · contradiction
  | finish thread =>
      simp only [step] at stepped
      split at stepped
      · next atFrame =>
          rcases Option.some.inj stepped with rfl
          refine Or.inr ⟨rfl, fun intended => intended.pop atFrame rfl (List.Subset.refl _) ?_⟩
          simp
      · contradiction
  | proceed thread inside =>
      simp only [step] at stepped
      split at stepped
      case h_2 => contradiction
      case h_1 routine program below atProgram =>
        -- Steps of calls which are not about to make an access.
        have others (idle : ¬intends program)
            {frames : List (Frame Shared Mutex Task Context Routine)}
            (moved : after.stack = Function.update s.stack thread frames)
            (kept : below ⊆ frames) (intended : s.Intends intends) : after.Intends intends :=
          intended.pop atProgram moved kept fun _ _ isProgram =>
            (Frame.executing.inj isProgram).2 ▸ idle
        have idle (notLock : ∀ mutex next, program ≠ .lock mutex next)
            (notAccess : ∀ effect next, program ≠ .access effect next) : ¬intends program := by
          intro holds
          rcases intention program holds with ⟨mutex, next, isLock, _⟩ | ⟨effect, next, isAccess⟩
          · exact notLock mutex next isLock
          · exact notAccess effect next isAccess
        cases program with
        | lock mutex next =>
            simp only [proceed] at stepped
            split at stepped
            · contradiction
            · rcases Option.some.inj stepped with rfl
              refine Or.inr ⟨rfl, fun intended => intended.move rfl ?_⟩
              intro other waiting member holds
              rw [atProgram] at member
              rcases List.mem_cons.mp member with isTop | deeper
              · rcases Frame.executing.inj isTop with ⟨rfl, rfl⟩
                rcases intention _ holds with ⟨_, later, isLock, holdsLater⟩ | ⟨_, _, isAccess⟩
                · rcases Program.lock.inj isLock with ⟨rfl, rfl⟩
                  exact ⟨_, _, List.mem_cons_self, holdsLater⟩
                · contradiction
              · exact ⟨other, waiting, List.mem_cons_of_mem _ deeper, holds⟩
        | access effect next =>
            simp only [proceed, Option.map_eq_some_iff] at stepped
            rcases stepped with ⟨shared, accessed, rfl⟩
            refine Or.inl ⟨thread, routine, effect, next, below, atProgram, accessed, rfl, ?_⟩
            intro intended
            by_cases holds : intends (.access effect next)
            · exact Or.inr holds
            · exact Or.inl (others holds rfl (List.subset_cons_self _ _) intended)
        | unlock mutex next =>
            simp only [proceed, Option.ite_none_right_eq_some, Option.some.injEq] at stepped
            rcases stepped with ⟨_, rfl⟩
            exact Or.inr ⟨rfl, others (idle (by simp) (by simp)) rfl (List.subset_cons_self _ _)⟩
        | post task next =>
            rcases Option.some.inj stepped with rfl
            exact Or.inr ⟨rfl, others (idle (by simp) (by simp)) rfl (List.subset_cons_self _ _)⟩
        | dispatch task next =>
            simp only [proceed] at stepped
            split at stepped
            · rw [Option.ite_none_right_eq_some, Option.some.injEq] at stepped
              rcases stepped with ⟨_, rfl⟩
              refine Or.inr ⟨rfl, others (idle (by simp) (by simp)) rfl ?_⟩
              exact List.Subset.trans (List.subset_cons_self _ _) (List.subset_cons_self _ _)
            · rcases Option.some.inj stepped with rfl
              exact Or.inr ⟨rfl, others (idle (by simp) (by simp)) rfl (List.subset_cons_self _ _)⟩
        | jump other =>
            rcases Option.some.inj stepped with rfl
            exact Or.inr ⟨rfl, others (idle (by simp) (by simp)) rfl (List.subset_cons_self _ _)⟩
        | done =>
            rcases Option.some.inj stepped with rfl
            exact Or.inr ⟨rfl, others (idle (by simp) (by simp)) rfl (List.Subset.refl _)⟩

end State

end Concurrency
