import ResourcePool.Concurrency.Threads

/-!
# Rules which calls obey

A rule says which mutexes may be locked beside those which a call holds, and which accesses
to the shared state it may make with them. If the routines of a code obey a rule, then
what is left of any call obeys it in every reachable state, with the mutexes which its
thread owns.

One such rule is that each mutex guards a part of the shared state, from which accesses
without the mutex keep apart: they neither write this part nor depend on it. Then no two
threads are ever at accesses to the same part.
-/

namespace Concurrency

open Transition

structure Rule (Shared Mutex Task Routine : Type) where
  mayLock : List Mutex → Mutex → Prop
  mayAccess : List Mutex → (Shared → Option Shared) →
    (Shared → Program Shared Mutex Task Routine) → Prop

variable {Shared Mutex Task Context Routine : Type}

/-- A part of the shared state, by what it is for two states to agree on the part, and
outside of it. -/
structure SharedPart (Shared : Type) where
  sameInside : Shared → Shared → Prop
  sameOutside : Shared → Shared → Prop

/-- An access leaves a part alone, and neither what it does elsewhere nor what follows it
depends on the part. -/
structure SharedPart.Apart (part : SharedPart Shared) (effect : Shared → Option Shared)
    (next : Shared → Program Shared Mutex Task Routine) : Prop where
  keeps : ∀ shared after, effect shared = some after → part.sameInside shared after
  blind : ∀ shared other, part.sameOutside shared other →
    next shared = next other ∧
      ∀ after otherAfter, effect shared = some after → effect other = some otherAfter →
        part.sameOutside after otherAfter

/-- Accesses without the mutex of a part keep apart from it. -/
def Rule.Guards (rule : Rule Shared Mutex Task Routine)
    (parts : Mutex → SharedPart Shared) : Prop :=
  ∀ held effect next, rule.mayAccess held effect next →
    ∀ mutex, mutex ∉ held → (parts mutex).Apart effect next

namespace Program

/-- A call which holds the mutexes `held`, the last one locked first, obeys the rule. -/
def Obeys (rule : Rule Shared Mutex Task Routine) :
    List Mutex → Program Shared Mutex Task Routine → Prop
  | held, lock mutex next => rule.mayLock held mutex ∧ Obeys rule (mutex :: held) next
  | held, unlock _ next => Obeys rule held.tail next
  | held, access effect next =>
      rule.mayAccess held effect next ∧ ∀ shared, Obeys rule held (next shared)
  | held, post _ next => Obeys rule held next
  | held, dispatch _ next => Obeys rule held next
  | _, jump _ => True
  | _, done => True

theorem obeys_postEach {rule : Rule Shared Mutex Task Routine} {held : List Mutex}
    {next : Program Shared Mutex Task Routine} (tasks : List Task)
    (obeys : next.Obeys rule held) : (postEach tasks next).Obeys rule held := by
  induction tasks with
  | nil => exact obeys
  | cons task tasks ih => exact ih

/-- What is left of a disciplined call says which mutexes it holds. -/
theorem Disciplined.unique {heldAt : Routine → List Mutex} {locked : Bool}
    {program : Program Shared Mutex Task Routine} {held other : List Mutex} (shared : Shared)
    (first : program.Disciplined heldAt locked held)
    (second : program.Disciplined heldAt locked other) : held = other := by
  induction program generalizing held other with
  | lock mutex next ih => exact List.tail_eq_of_cons_eq (ih first.2 second.2)
  | unlock mutex next ih =>
      rcases List.head?_eq_some_iff.mp first.1 with ⟨remaining, rfl⟩
      rcases List.head?_eq_some_iff.mp second.1 with ⟨others, rfl⟩
      exact congrArg (mutex :: ·) (ih first.2 second.2)
  | access effect next ih => exact ih shared (first shared) (second shared)
  | post task next ih => exact ih first second
  | dispatch task next ih => exact ih first.2 second.2
  | jump routine => exact Eq.trans first (Eq.symm second)
  | done => exact Eq.trans first (Eq.symm second)

end Program

/-- The routines of a code obey a rule. -/
def Discipline.Obeys {code : Code Shared Mutex Task Context Routine}
    (discipline : Discipline code) (rule : Rule Shared Mutex Task Routine) : Prop :=
  ∀ routine, (code.body routine).Obeys rule (discipline.heldAt routine)

variable {code : Code Shared Mutex Task Context Routine} {discipline : Discipline code}
  {rule : Rule Shared Mutex Task Routine}

/-- What is left of a call obeys the rule, with the mutexes which the call holds. -/
def Frame.Obeys (discipline : Discipline code) (rule : Rule Shared Mutex Task Routine) :
    Frame Shared Mutex Task Context Routine → Prop
  | .running _ | .handling _ => True
  | .executing routine rest => ∃ held,
      rest.Disciplined discipline.heldAt (discipline.dispatchesLocked routine) held ∧
        rest.Obeys rule held

theorem Frame.obeys_body (obedient : discipline.Obeys rule) (routine : Routine) :
    (Frame.executing routine (code.body routine) :
      Frame Shared Mutex Task Context Routine).Obeys discipline rule :=
  ⟨discipline.heldAt routine, discipline.disciplined routine, obedient routine⟩

namespace State

variable {s after : State Shared Mutex Task Context Routine} {thread : ThreadId}

/-- All calls which are in progress obey the rule. -/
def Obedient (discipline : Discipline code) (rule : Rule Shared Mutex Task Routine)
    (s : State Shared Mutex Task Context Routine) : Prop :=
  ∀ thread, ∀ frame ∈ s.stack thread, frame.Obeys discipline rule

namespace Obedient

theorem move (obedient : s.Obedient discipline rule)
    {frames : List (Frame Shared Mutex Task Context Routine)}
    (moved : after.stack = Function.update s.stack thread frames)
    (obey : ∀ frame ∈ frames, frame.Obeys discipline rule) :
    after.Obedient discipline rule := by
  intro other frame member
  rw [moved] at member
  by_cases same : other = thread
  · subst same
    rw [Function.update_self] at member
    exact obey frame member
  · rw [Function.update_of_ne same] at member
    exact obedient other frame member

variable [DecidableEq Mutex] [DecidableEq Context]

theorem proceed (obedient : s.Obedient discipline rule) (routines : discipline.Obeys rule)
    {inside : Bool} {routine : Routine} {program : Program Shared Mutex Task Routine}
    {below : List (Frame Shared Mutex Task Context Routine)}
    (atProgram : s.stack thread = .executing routine program :: below)
    (proceeded : s.proceed code thread inside routine below program = some after) :
    after.Obedient discipline rule := by
  have others : ∀ frame ∈ below, frame.Obeys discipline rule := by
    intro frame member
    exact obedient thread frame (atProgram ▸ List.mem_cons_of_mem _ member)
  have innermost := obedient thread (.executing routine program)
    (atProgram ▸ List.mem_cons_self)
  rcases innermost with ⟨held, disciplined, obeys⟩
  have advance : ∀ {next : Program Shared Mutex Task Routine}
      {following : State Shared Mutex Task Context Routine} (later : List Mutex),
      next.Disciplined discipline.heldAt (discipline.dispatchesLocked routine) later →
      next.Obeys rule later →
      following.stack = Function.update s.stack thread (.executing routine next :: below) →
      following.Obedient discipline rule := by
    intro next following later isDisciplined obeysNext moved
    exact obedient.move moved
      (List.forall_mem_cons.mpr ⟨⟨later, isDisciplined, obeysNext⟩, others⟩)
  cases program with
  | lock mutex next =>
      simp only [State.proceed] at proceeded
      split at proceeded
      · contradiction
      · rcases Option.some.inj proceeded with rfl
        exact advance _ disciplined.2 obeys.2 rfl
  | unlock mutex next =>
      simp only [State.proceed, Option.ite_none_right_eq_some, Option.some.injEq] at proceeded
      rcases proceeded with ⟨_, rfl⟩
      exact advance _ disciplined.2 obeys rfl
  | access effect next =>
      simp only [State.proceed, Option.map_eq_some_iff] at proceeded
      rcases proceeded with ⟨shared, _, rfl⟩
      exact advance _ (disciplined s.shared) (obeys.2 s.shared) rfl
  | post task next =>
      rcases Option.some.inj proceeded with rfl
      exact advance held (show next.Disciplined _ _ held from disciplined) obeys rfl
  | dispatch task next =>
      simp only [State.proceed] at proceeded
      split at proceeded
      · rw [Option.ite_none_right_eq_some, Option.some.injEq] at proceeded
        rcases proceeded with ⟨_, rfl⟩
        refine obedient.move rfl ?_
        exact List.forall_mem_cons.mpr
          ⟨trivial, List.forall_mem_cons.mpr ⟨⟨_, disciplined.2, obeys⟩, others⟩⟩
      · rcases Option.some.inj proceeded with rfl
        exact advance _ disciplined.2 obeys rfl
  | jump other =>
      rcases Option.some.inj proceeded with rfl
      exact obedient.move rfl
        (List.forall_mem_cons.mpr ⟨Frame.obeys_body routines other, others⟩)
  | done =>
      rcases Option.some.inj proceeded with rfl
      exact obedient.move rfl others

theorem step (obedient : s.Obedient discipline rule) (routines : discipline.Obeys rule)
    {event : Event Context Routine} (stepped : s.step code event = some after) :
    after.Obedient discipline rule := by
  cases event with
  | call thread routine =>
      simp only [State.step, Option.ite_none_right_eq_some, Option.some.injEq] at stepped
      rcases stepped with ⟨_, rfl⟩
      exact obedient.move rfl
        (List.forall_mem_cons.mpr ⟨Frame.obeys_body routines routine, obedient thread⟩)
  | proceed thread inside =>
      simp only [State.step] at stepped
      split at stepped
      · next atProgram => exact obedient.proceed routines atProgram stepped
      · contradiction
  | enter thread context =>
      simp only [State.step, Option.ite_none_right_eq_some, Option.some.injEq] at stepped
      rcases stepped with ⟨_, rfl⟩
      exact obedient.move rfl (List.forall_mem_cons.mpr ⟨trivial, obedient thread⟩)
  | leave thread =>
      simp only [State.step] at stepped
      split at stepped
      · next atFrame =>
          rcases Option.some.inj stepped with rfl
          refine obedient.move rfl fun frame member => obedient thread frame ?_
          exact atFrame ▸ List.mem_cons_of_mem _ member
      · contradiction
  | handle thread index =>
      simp only [State.step] at stepped
      split at stepped
      · next atFrame _ =>
          simp only [Option.ite_none_right_eq_some, Option.some.injEq] at stepped
          rcases stepped with ⟨_, rfl⟩
          rw [← atFrame]
          exact obedient.move rfl (List.forall_mem_cons.mpr ⟨trivial, obedient thread⟩)
      · contradiction
  | finish thread =>
      simp only [State.step] at stepped
      split at stepped
      · next atFrame =>
          rcases Option.some.inj stepped with rfl
          refine obedient.move rfl fun frame member => obedient thread frame ?_
          exact atFrame ▸ List.mem_cons_of_mem _ member
      · contradiction

theorem of_reachableVia {condition : State Shared Mutex Task Context Routine →
      Event Context Routine → Prop} (routines : discipline.Obeys rule)
    (reached : (State.system code).ReachableVia condition s) : s.Obedient discipline rule := by
  apply System.ReachableVia.invariant ?_ ?_ reached
  · rintro _ ⟨shared, rfl⟩ thread frame member
    simp [State.initially] at member
  · intro before event after obedient _ stepped
    exact obedient.step routines stepped

end Obedient

end State

/-- A call obeys the rule with the mutexes which its thread owns. -/
theorem Owns.obeys {s : State Shared Mutex Task Context Routine} {thread : ThreadId}
    {held : List Mutex} {routine : Routine} {program : Program Shared Mutex Task Routine}
    {below : List (Frame Shared Mutex Task Context Routine)}
    (owns : Owns discipline s thread held) (obedient : s.Obedient discipline rule)
    (atProgram : s.stack thread = .executing routine program :: below) :
    program.Obeys rule held := by
  rcases obedient thread (.executing routine program) (atProgram ▸ List.mem_cons_self) with
    ⟨other, disciplined, obeys⟩
  have stack := owns.stack
  rw [atProgram] at stack
  rwa [stack.1.unique s.shared disciplined]

/-- An access of a thread which does not own the mutex of a part keeps apart from it. -/
theorem Accounted.apart {s : State Shared Mutex Task Context Routine} {thread : ThreadId}
    {routine : Routine} {effect : Shared → Option Shared}
    {next : Shared → Program Shared Mutex Task Routine}
    {below : List (Frame Shared Mutex Task Context Routine)} {parts : Mutex → SharedPart Shared}
    (guards : rule.Guards parts) (accounted : Accounted discipline s)
    (obedient : s.Obedient discipline rule)
    (atAccess : s.stack thread = .executing routine (.access effect next) :: below)
    {mutex : Mutex} (notOwner : s.owner mutex ≠ some thread) :
    (parts mutex).Apart effect next := by
  rcases accounted thread with ⟨held, owns⟩
  have obeys := owns.obeys obedient atAccess
  exact guards held effect next obeys.1 mutex fun isHeld => notOwner ((owns.owner mutex).mpr isHeld)

end Concurrency
