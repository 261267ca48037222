import Mathlib.Algebra.Order.BigOperators.Group.Finset
import Mathlib.Data.Finset.Max
import Mathlib.Data.Fintype.Card
import ResourcePool.Concurrency.Rules

/-!
# Calls which can always return

If mutexes are locked in the order of a rank only, the owner of the highest mutex waits for
none, so that threads never wait for each other in a circle. If besides each call comes to
its end when it runs alone, which a variant of its jumps shows, then all calls in progress
can return from every reachable state: the highest mutex is released first, until none is
owned, and then the threads return one after the other.

What may keep a call from its end is an access which is undefined, or a task which it
dispatches with mutexes while its thread runs the context of the task.
-/

namespace Concurrency

open Transition

variable {Shared Mutex Task Context Routine : Type}

/-- Each mutex is locked above those which are held. -/
def Rule.Ascends (rule : Rule Shared Mutex Task Routine) (rank : Mutex → ℕ) : Prop :=
  ∀ held mutex, rule.mayLock held mutex → ∀ other ∈ held, rank other < rank mutex

/-! ### The end of a call -/

namespace Program

/-- Alone the call comes to its end, or to an access which is undefined. -/
inductive Ends (code : Code Shared Mutex Task Context Routine) :
    Program Shared Mutex Task Routine → Shared → Prop where
  | lock {mutex : Mutex} {next : Program Shared Mutex Task Routine} {shared : Shared}
      (ends : Ends code next shared) : Ends code (.lock mutex next) shared
  | unlock {mutex : Mutex} {next : Program Shared Mutex Task Routine} {shared : Shared}
      (ends : Ends code next shared) : Ends code (.unlock mutex next) shared
  | undefined {effect : Shared → Option Shared}
      {next : Shared → Program Shared Mutex Task Routine} {shared : Shared}
      (isUndefined : effect shared = none) : Ends code (.access effect next) shared
  | access {effect : Shared → Option Shared}
      {next : Shared → Program Shared Mutex Task Routine} {shared after : Shared}
      (accessed : effect shared = some after) (ends : Ends code (next shared) after) :
      Ends code (.access effect next) shared
  | post {task : Task} {next : Program Shared Mutex Task Routine} {shared : Shared}
      (ends : Ends code next shared) : Ends code (.post task next) shared
  | dispatch {task : Task} {next : Program Shared Mutex Task Routine} {shared : Shared}
      (ends : Ends code next shared) : Ends code (.dispatch task next) shared
  | jump {routine : Routine} {shared : Shared} (ends : Ends code (code.body routine) shared) :
      Ends code (.jump routine) shared
  | done {shared : Shared} : Ends code .done shared

/-- Alone the call comes to no jump but one which takes the variant below a bound. -/
def Decreases (variant : Routine → Shared → ℕ) (bound : ℕ) :
    Program Shared Mutex Task Routine → Shared → Prop
  | lock _ next, shared | unlock _ next, shared => next.Decreases variant bound shared
  | access effect next, shared =>
      ∀ after, effect shared = some after → (next shared).Decreases variant bound after
  | post _ next, shared | dispatch _ next, shared => next.Decreases variant bound shared
  | jump routine, shared => variant routine shared < bound
  | done, _ => True

variable {code : Code Shared Mutex Task Context Routine} {variant : Routine → Shared → ℕ}

theorem decreases_postEach {bound : ℕ} {next : Program Shared Mutex Task Routine}
    {shared : Shared} (tasks : List Task) (decreases : next.Decreases variant bound shared) :
    (postEach tasks next).Decreases variant bound shared := by
  induction tasks with
  | nil => exact decreases
  | cons task tasks ih => exact ih

theorem ends_of_jumps {bound : ℕ} {program : Program Shared Mutex Task Routine}
    {shared : Shared}
    (jumps : ∀ routine shared, variant routine shared < bound →
      (code.body routine).Ends code shared)
    (decreases : program.Decreases variant bound shared) : program.Ends code shared := by
  induction program generalizing shared with
  | lock mutex next ih => exact .lock (ih decreases)
  | unlock mutex next ih => exact .unlock (ih decreases)
  | access effect next ih =>
      cases accessed : effect shared with
      | none => exact .undefined accessed
      | some after => exact .access accessed (ih shared (decreases after accessed))
  | post task next ih => exact .post (ih decreases)
  | dispatch task next ih => exact .dispatch (ih decreases)
  | jump routine => exact .jump (jumps routine shared decreases)
  | done => exact .done

end Program

/-- The variant of a routine bounds those of the jumps from it. -/
def Code.Terminating (code : Code Shared Mutex Task Context Routine)
    (variant : Routine → Shared → ℕ) : Prop :=
  ∀ routine shared, (code.body routine).Decreases variant (variant routine shared) shared

theorem Code.Terminating.ends_body {code : Code Shared Mutex Task Context Routine}
    {variant : Routine → Shared → ℕ} (terminating : code.Terminating variant)
    (routine : Routine) (shared : Shared) : (code.body routine).Ends code shared := by
  induction bound : variant routine shared using Nat.strongRecOn generalizing routine shared with
  | _ size ih =>
      refine Program.ends_of_jumps ?_ (terminating routine shared)
      intro other reached less
      exact ih _ (bound ▸ less) other reached rfl

/-- Whatever is left of a call ends, from whatever state. -/
theorem Code.Terminating.ends {code : Code Shared Mutex Task Context Routine}
    {variant : Routine → Shared → ℕ} (terminating : code.Terminating variant)
    (program : Program Shared Mutex Task Routine) (shared : Shared) :
    program.Ends code shared := by
  induction program generalizing shared with
  | lock mutex next ih => exact .lock (ih shared)
  | unlock mutex next ih => exact .unlock (ih shared)
  | access effect next ih =>
      cases accessed : effect shared with
      | none => exact .undefined accessed
      | some after => exact .access accessed (ih shared after)
  | post task next ih => exact .post (ih shared)
  | dispatch task next ih => exact .dispatch (ih shared)
  | jump routine => exact .jump (terminating.ends_body routine shared)
  | done => exact .done

/-! ### Threads which only return -/

/-- An event which continues what is in progress, and begins nothing. -/
def Event.returns : Event Context Routine → Bool
  | .proceed .. | .leave _ | .finish _ => true
  | .call .. | .enter .. | .handle .. => false

namespace State

/-- A thread has come to an access which is undefined. -/
def AtUndefined (s : State Shared Mutex Task Context Routine) : Prop :=
  ∃ thread routine effect next below,
    s.stack thread = .executing routine (.access effect next) :: below ∧ effect s.shared = none

/-- No call is in progress, no context is run, and no mutex is owned. -/
def Idle (s : State Shared Mutex Task Context Routine) : Prop :=
  (∀ thread, s.stack thread = []) ∧ ∀ mutex, s.owner mutex = none

variable {code : Code Shared Mutex Task Context Routine} [DecidableEq Context]

/-- What keeps a thread from returning. -/
def Misused (discipline : Discipline code) (s : State Shared Mutex Task Context Routine) : Prop :=
  s.AtUndefined ∨ ∃ thread inside, ¬s.DispatchesElsewhere discipline (.proceed thread inside)

def OnlyReturns (discipline : Discipline code) (s : State Shared Mutex Task Context Routine)
    (event : Event Context Routine) : Prop :=
  event.returns = true ∧ s.DispatchesElsewhere discipline event

theorem stack_of_step [DecidableEq Mutex] {s after : State Shared Mutex Task Context Routine}
    {event : Event Context Routine} (stepped : s.step code event = some after) :
    ∃ thread frames, after.stack = Function.update s.stack thread frames := by
  cases event with
  | call thread routine | enter thread context =>
      simp only [State.step, Option.ite_none_right_eq_some, Option.some.injEq] at stepped
      rcases stepped with ⟨_, rfl⟩
      exact ⟨thread, _, rfl⟩
  | proceed thread inside =>
      simp only [State.step] at stepped
      split at stepped
      · next routine program below _ =>
          cases program with
          | lock mutex next =>
              simp only [State.proceed] at stepped
              split at stepped
              · contradiction
              · rcases Option.some.inj stepped with rfl
                exact ⟨thread, _, rfl⟩
          | unlock mutex next =>
              simp only [State.proceed, Option.ite_none_right_eq_some, Option.some.injEq] at stepped
              rcases stepped with ⟨_, rfl⟩
              exact ⟨thread, _, rfl⟩
          | access effect next =>
              simp only [State.proceed, Option.map_eq_some_iff] at stepped
              rcases stepped with ⟨_, _, rfl⟩
              exact ⟨thread, _, rfl⟩
          | dispatch task next =>
              simp only [State.proceed] at stepped
              split at stepped
              · rw [Option.ite_none_right_eq_some, Option.some.injEq] at stepped
                rcases stepped with ⟨_, rfl⟩
                exact ⟨thread, _, rfl⟩
              · rcases Option.some.inj stepped with rfl
                exact ⟨thread, _, rfl⟩
          | post task next | jump other | done =>
              rcases Option.some.inj stepped with rfl
              exact ⟨thread, _, rfl⟩
      · contradiction
  | leave thread | finish thread =>
      simp only [State.step] at stepped
      split at stepped
      · rcases Option.some.inj stepped with rfl
        exact ⟨thread, _, rfl⟩
      · contradiction
  | handle thread index =>
      simp only [State.step] at stepped
      split at stepped
      · simp only [Option.ite_none_right_eq_some, Option.some.injEq] at stepped
        rcases stepped with ⟨_, rfl⟩
        exact ⟨thread, _, rfl⟩
      · contradiction

/-- Only finitely many threads have begun. -/
theorem exists_bound [DecidableEq Mutex] {s : State Shared Mutex Task Context Routine}
    {condition : State Shared Mutex Task Context Routine → Event Context Routine → Prop}
    (reached : (State.system code).ReachableVia condition s) :
    ∃ bound : ℕ, ∀ thread : ℕ, bound ≤ thread → s.stack thread = [] := by
  apply System.ReachableVia.invariant
    (motive := fun s : State Shared Mutex Task Context Routine =>
      ∃ bound : ℕ, ∀ thread : ℕ, bound ≤ thread → s.stack thread = []) ?_ ?_ reached
  · rintro _ ⟨shared, rfl⟩
    exact ⟨0, fun _ _ => rfl⟩
  · rintro before event after ⟨bound, unused⟩ _ stepped
    rcases stack_of_step stepped with ⟨thread, frames, moved⟩
    refine ⟨max bound (thread + 1), ?_⟩
    intro other above
    have different : other ≠ thread := by omega
    rw [moved, Function.update_of_ne different]
    exact unused other (by omega)

end State

/-! ### One thread runs -/

section

variable [DecidableEq Context] {code : Code Shared Mutex Task Context Routine}
  {discipline : Discipline code} {rule : Rule Shared Mutex Task Routine} {rank : Mutex → ℕ}
  {s : State Shared Mutex Task Context Routine} {thread : ThreadId}

omit [DecidableEq Context] in
/-- A thread owns what the rest of its innermost call says. -/
theorem Accounted.owns (accounted : Accounted discipline s) {routine : Routine}
    {program : Program Shared Mutex Task Routine} {held : List Mutex}
    {below : List (Frame Shared Mutex Task Context Routine)}
    (atProgram : s.stack thread = .executing routine program :: below)
    (disciplined :
      program.Disciplined discipline.heldAt (discipline.dispatchesLocked routine) held) :
    Owns discipline s thread held := by
  rcases accounted thread with ⟨other, owns⟩
  have stack := owns.stack
  rw [atProgram] at stack
  rwa [← stack.1.unique s.shared disciplined]

variable [DecidableEq Mutex]

abbrev ReachedElsewhere (discipline : Discipline code)
    (s : State Shared Mutex Task Context Routine) : Prop :=
  (State.system code).ReachableVia (State.DispatchesElsewhere discipline) s

/-- The thread has released the first mutex of `base`, or has returned from its call if
`base` is empty, unless something keeps it from that. -/
def Released (discipline : Discipline code) (s : State Shared Mutex Task Context Routine)
    (thread : ThreadId) (base : List Mutex)
    (below : List (Frame Shared Mutex Task Context Routine))
    (after : State Shared Mutex Task Context Routine) : Prop :=
  after.Misused discipline ∨
    (∀ mutex, after.owner mutex = some thread ↔ mutex ∈ base.tail) ∧
    (∀ mutex other, other ≠ thread →
      (after.owner mutex = some other ↔ s.owner mutex = some other)) ∧
    (base = [] → after.stack = Function.update s.stack thread below)

omit [DecidableEq Mutex] in
theorem Released.of_step {following after : State Shared Mutex Task Context Routine}
    {base : List Mutex} {below frames : List (Frame Shared Mutex Task Context Routine)}
    (others : ∀ mutex other, other ≠ thread →
      (following.owner mutex = some other ↔ s.owner mutex = some other))
    (moved : following.stack = Function.update s.stack thread frames)
    (released : Released discipline following thread base below after) :
    Released discipline s thread base below after := by
  rcases released with misused | ⟨own, others', returned⟩
  · exact Or.inl misused
  · refine Or.inr ⟨own, ?_, ?_⟩
    · intro mutex other different
      rw [others' mutex other different, others mutex other different]
    · intro isEmpty
      rw [returned isEmpty, moved, Function.update_idem]

omit [DecidableEq Context] in
theorem setOwner_other {mutex : Mutex} {owner : Option ThreadId}
    (own : ∀ other, other ≠ thread → s.owner mutex ≠ some other)
    (given : ∀ other, other ≠ thread → owner ≠ some other) (lockable : Mutex)
    (other : ThreadId) (different : other ≠ thread) :
    (s.setOwner mutex owner).owner lockable = some other ↔ s.owner lockable = some other := by
  by_cases same : lockable = mutex
  · subst same
    simp [State.setOwner, own other different, given other different]
  · simp [State.setOwner, same]

/-- A step of the thread brings it closer to a release. -/
theorem leadsTo_advance {following : State Shared Mutex Task Context Routine}
    {routine : Routine} {next : Program Shared Mutex Task Routine} {held base : List Mutex}
    {below : List (Frame Shared Mutex Task Context Routine)}
    (reached : ReachedElsewhere discipline s)
    (stepped : s.step code (.proceed thread false) = some following)
    (moved : following.stack = Function.update s.stack thread (.executing routine next :: below))
    (disciplined : next.Disciplined discipline.heldAt (discipline.dispatchesLocked routine) held)
    (same : ∀ mutex other, other ≠ thread →
      (following.owner mutex = some other ↔ s.owner mutex = some other))
    (others : ∀ mutex other, other ≠ thread → s.owner mutex = some other →
      ∃ lower ∈ base, rank mutex ≤ rank lower)
    (continues : ReachedElsewhere discipline following →
      following.stack thread = .executing routine next :: below →
      Owns discipline following thread held →
      (∀ mutex other, other ≠ thread → following.owner mutex = some other →
        ∃ lower ∈ base, rank mutex ≤ rank lower) →
      ∃ after, (State.system code).LeadsTo (State.OnlyReturns discipline) following after ∧
        Released discipline following thread base below after) :
    ∃ after, (State.system code).LeadsTo (State.OnlyReturns discipline) s after ∧
      Released discipline s thread base below after := by
  by_cases elsewhere : s.DispatchesElsewhere discipline (.proceed thread false)
  · have reachedNext : ReachedElsewhere discipline following := .next reached elsewhere stepped
    have atNext : following.stack thread = .executing routine next :: below := by
      rw [moved, Function.update_self]
    have ownsNext := (Accounted.of_reachableVia reachedNext).owns atNext disciplined
    have othersNext : ∀ mutex other, other ≠ thread → following.owner mutex = some other →
        ∃ lower ∈ base, rank mutex ≤ rank lower := fun mutex other different owned =>
      others mutex other different ((same mutex other different).mp owned)
    rcases continues reachedNext atNext ownsNext othersNext with ⟨after, leads, released⟩
    exact ⟨after, .head ⟨rfl, elsewhere⟩ stepped leads, released.of_step same moved⟩
  · exact ⟨s, .refl, Or.inl (Or.inr ⟨thread, false, elsewhere⟩)⟩

/--
A thread which owns `base`, and perhaps more, can run until it releases the first mutex of
`base`, or returns from its call if `base` is empty, as no other thread owns a mutex above
those of `base`.
-/
theorem leadsTo_release (ascends : rule.Ascends rank) (obeys : discipline.Obeys rule)
    {program : Program Shared Mutex Task Routine} (ends : program.Ends code s.shared)
    (reached : ReachedElsewhere discipline s) {routine : Routine} {above base : List Mutex}
    {below : List (Frame Shared Mutex Task Context Routine)}
    (atProgram : s.stack thread = .executing routine program :: below)
    (owns : Owns discipline s thread (above ++ base))
    (others : ∀ mutex other, other ≠ thread → s.owner mutex = some other →
      ∃ lower ∈ base, rank mutex ≤ rank lower) :
    ∃ after, (State.system code).LeadsTo (State.OnlyReturns discipline) s after ∧
      Released discipline s thread base below after := by
  generalize isShared : s.shared = shared at ends
  induction ends generalizing s above routine with
  | @lock mutex next shared ends ih =>
      have stack := owns.stack
      rw [atProgram] at stack
      have allowed := (owns.obeys (.of_reachableVia obeys reached) atProgram).1
      have free : s.owner mutex = none := by
        cases owned : s.owner mutex with
        | none => rfl
        | some other =>
            by_cases same : other = thread
            · subst same
              exact absurd ((owns.owner mutex).mp owned) stack.1.1
            · rcases others mutex other same owned with ⟨lower, inBase, notAbove⟩
              have isHeld := List.mem_append_right above inBase
              exact absurd (ascends _ mutex allowed lower isHeld) (by omega)
      have stepped : s.step code (.proceed thread false) =
          some ((s.setOwner mutex (some thread)).setStack thread
            (.executing routine next :: below)) := by
        simp [State.step, atProgram, State.proceed, free]
      refine leadsTo_advance reached stepped rfl stack.1.2
        (setOwner_other (by simp [free]) (by simp [eq_comm])) others
        fun reachedNext atNext ownsNext othersNext => ?_
      rw [← List.cons_append] at ownsNext
      exact ih reachedNext atNext ownsNext othersNext isShared
  | @unlock mutex next shared ends ih =>
      have stack := owns.stack
      rw [atProgram] at stack
      have owned : s.owner mutex = some thread :=
        (owns.owner mutex).mpr (List.mem_of_head? stack.1.1)
      have stepped : s.step code (.proceed thread false) =
          some ((s.setOwner mutex none).setStack thread (.executing routine next :: below)) := by
        simp [State.step, atProgram, State.proceed, owned]
      have same : ∀ lockable other, other ≠ thread →
          ((s.setOwner mutex none).owner lockable = some other ↔
            s.owner lockable = some other) :=
        setOwner_other (by simp [owned, eq_comm]) (by simp)
      cases above with
      | cons first above =>
          exact leadsTo_advance reached stepped rfl stack.1.2 same others
            fun reachedNext atNext ownsNext othersNext =>
              ih reachedNext atNext ownsNext othersNext isShared
      | nil =>
          -- the first mutex of `base` is released
          refine leadsTo_advance reached stepped rfl stack.1.2 same others
            fun _ _ ownsNext _ => ⟨_, .refl, Or.inr ⟨ownsNext.owner, fun _ _ _ => Iff.rfl, ?_⟩⟩
          rintro rfl
          have isHeld : ([] : List Mutex).head? = some mutex := stack.1.1
          contradiction
  | @undefined effect next shared isUndefined =>
      subst isShared
      exact ⟨s, .refl, Or.inl (Or.inl ⟨thread, routine, effect, next, below, atProgram,
        isUndefined⟩)⟩
  | @access effect next shared changed accessed ends ih =>
      subst isShared
      have stack := owns.stack
      rw [atProgram] at stack
      have stepped : s.step code (.proceed thread false) =
          some ({ s with shared := changed }.setStack thread
            (.executing routine (next s.shared) :: below)) := by
        simp [State.step, atProgram, State.proceed, accessed]
      exact leadsTo_advance reached stepped rfl (stack.1 s.shared) (fun _ _ _ => Iff.rfl) others
        fun reachedNext atNext ownsNext othersNext =>
          ih reachedNext atNext ownsNext othersNext rfl
  | @post task next shared ends ih =>
      have stack := owns.stack
      rw [atProgram] at stack
      have stepped : s.step code (.proceed thread false) =
          some ((s.submit task).setStack thread (.executing routine next :: below)) := by
        simp [State.step, atProgram, State.proceed]
      exact leadsTo_advance reached stepped rfl stack.1 (fun _ _ _ => Iff.rfl) others
        fun reachedNext atNext ownsNext othersNext =>
          ih reachedNext atNext ownsNext othersNext isShared
  | @dispatch task next shared ends ih =>
      have stack := owns.stack
      rw [atProgram] at stack
      have stepped : s.step code (.proceed thread false) =
          some ((s.submit task).setStack thread (.executing routine next :: below)) := by
        simp [State.step, atProgram, State.proceed]
      exact leadsTo_advance reached stepped rfl stack.1.2 (fun _ _ _ => Iff.rfl) others
        fun reachedNext atNext ownsNext othersNext =>
          ih reachedNext atNext ownsNext othersNext isShared
  | @jump other shared ends ih =>
      have stack := owns.stack
      rw [atProgram] at stack
      have heldHere : above ++ base = discipline.heldAt other := stack.1
      have stepped : s.step code (.proceed thread false) =
          some (s.setStack thread (.executing other (code.body other) :: below)) := by
        simp [State.step, atProgram, State.proceed]
      refine leadsTo_advance reached stepped rfl (discipline.disciplined other)
        (fun _ _ _ => Iff.rfl) others fun reachedNext atNext ownsNext othersNext => ?_
      rw [← heldHere] at ownsNext
      exact ih reachedNext atNext ownsNext othersNext isShared
  | done =>
      have stack := owns.stack
      rw [atProgram] at stack
      have nothingHeld : above ++ base = [] := stack.1
      rcases List.append_eq_nil_iff.mp nothingHeld with ⟨rfl, rfl⟩
      by_cases elsewhere : s.DispatchesElsewhere discipline (.proceed thread false)
      · have stepped : s.step code (.proceed thread false) = some (s.setStack thread below) := by
          simp [State.step, atProgram, State.proceed]
        exact ⟨_, .step ⟨rfl, elsewhere⟩ stepped,
          Or.inr ⟨owns.owner, fun _ _ _ => Iff.rfl, fun _ => rfl⟩⟩
      · exact ⟨s, .refl, Or.inl (Or.inr ⟨thread, false, elsewhere⟩)⟩

/-! ### All threads return -/

omit [DecidableEq Context] [DecidableEq Mutex] in
theorem Owns.executes {held : List Mutex} (owns : Owns discipline s thread held)
    (holds : held ≠ []) :
    ∃ routine program below, s.stack thread = .executing routine program :: below := by
  have stack := owns.stack
  cases frames : s.stack thread with
  | nil =>
      rw [frames] at stack
      exact absurd stack holds
  | cons frame below =>
      rw [frames] at stack
      cases frame with
      | running context => exact absurd stack.1 holds
      | handling task => exact absurd stack.1 holds
      | executing routine program => exact ⟨routine, program, below, rfl⟩

section

variable [Fintype Mutex]

omit [DecidableEq Context] [DecidableEq Mutex] in
/-- The mutexes which are owned. -/
def State.owned (s : State Shared Mutex Task Context Routine) : Finset Mutex :=
  Finset.univ.filter fun mutex => (s.owner mutex).isSome

variable {variant : Routine → Shared → ℕ}

/-- The owner of the highest mutex can release it. -/
theorem leadsTo_fewer (ascends : rule.Ascends rank) (obeys : discipline.Obeys rule)
    (terminating : code.Terminating variant) (reached : ReachedElsewhere discipline s)
    (isOwned : s.owned.Nonempty) :
    ∃ after, (State.system code).LeadsTo (State.OnlyReturns discipline) s after ∧
      (after.Misused discipline ∨ after.owned.card < s.owned.card) := by
  rcases s.owned.exists_max_image rank isOwned with ⟨top, topOwned, highest⟩
  have accounted := Accounted.of_reachableVia reached
  rcases Option.isSome_iff_exists.mp (Finset.mem_filter.mp topOwned).2 with ⟨thread, isOwner⟩
  rcases accounted thread with ⟨held, owns⟩
  rcases List.append_of_mem ((owns.owner top).mp isOwner) with ⟨above, kept, rfl⟩
  rcases owns.executes (by simp) with ⟨routine, program, below, atProgram⟩
  have others : ∀ mutex other, other ≠ thread → s.owner mutex = some other →
      ∃ lower ∈ top :: kept, rank mutex ≤ rank lower := by
    intro mutex other _ owned
    exact ⟨top, List.mem_cons_self, highest mutex (by simp [State.owned, owned])⟩
  rcases leadsTo_release ascends obeys (terminating.ends program s.shared) reached atProgram owns
    others with ⟨after, leads, misused | ⟨own, same, _⟩⟩
  · exact ⟨after, leads, Or.inl misused⟩
  · refine ⟨after, leads, Or.inr (Finset.card_lt_card ?_)⟩
    have released : ∀ mutex ∈ after.owned, mutex ≠ top ∧ mutex ∈ s.owned := by
      intro mutex member
      rcases Option.isSome_iff_exists.mp (Finset.mem_filter.mp member).2 with ⟨owner, owned⟩
      by_cases isThread : owner = thread
      · subst isThread
        have stays : mutex ∈ kept := (own mutex).mp owned
        have isHeld := (owns.owner mutex).mpr
          (List.mem_append_right _ (List.mem_cons_of_mem _ stays))
        refine ⟨?_, by simp [State.owned, isHeld]⟩
        rintro rfl
        exact (List.nodup_cons.mp (List.nodup_append.mp owns.nodup).2.1).1 stays
      · rw [same mutex owner isThread] at owned
        refine ⟨?_, by simp [State.owned, owned]⟩
        rintro rfl
        exact isThread (Option.some.inj (owned.symm.trans isOwner))
    refine ⟨fun mutex member => (released mutex member).2, ?_⟩
    exact fun all => (released top (all topOwned)).1 rfl

theorem leadsTo_free (ascends : rule.Ascends rank) (obeys : discipline.Obeys rule)
    (terminating : code.Terminating variant) (reached : ReachedElsewhere discipline s) :
    ∃ after, (State.system code).LeadsTo (State.OnlyReturns discipline) s after ∧
      (after.Misused discipline ∨ ∀ mutex, after.owner mutex = none) := by
  apply System.leadsTo_of_variant (motive := ReachedElsewhere discipline)
    (fun s => s.owned.card) ?_ reached
  intro state reachedState short
  have isOwned : state.owned.Nonempty := by
    by_contra nothing
    rw [Finset.not_nonempty_iff_eq_empty] at nothing
    refine short (Or.inr fun mutex => ?_)
    by_contra owned
    have member : mutex ∈ state.owned := by
      simpa [State.owned, Option.isSome_iff_ne_none] using owned
    simp [nothing] at member
  rcases leadsTo_fewer ascends obeys terminating reachedState isOwned with
    ⟨after, leads, misused | fewer⟩
  · exact ⟨after, leads, Or.inl (Or.inl misused)⟩
  · exact ⟨after, leads, Or.inr ⟨reachedState.leadsTo (fun _ _ only => only.2) leads, fewer⟩⟩

end

/-- While no mutex is owned, a thread can return from its innermost frame. -/
theorem leadsTo_pop {variant : Routine → Shared → ℕ}
    (ascends : rule.Ascends rank) (obeys : discipline.Obeys rule)
    (terminating : code.Terminating variant)
    (reached : ReachedElsewhere discipline s) (free : ∀ mutex, s.owner mutex = none)
    {frame : Frame Shared Mutex Task Context Routine}
    {below : List (Frame Shared Mutex Task Context Routine)}
    (atFrame : s.stack thread = frame :: below) :
    ∃ after, (State.system code).LeadsTo (State.OnlyReturns discipline) s after ∧
      (after.Misused discipline ∨ (∀ mutex, after.owner mutex = none) ∧
        after.stack = Function.update s.stack thread below) := by
  cases frame with
  | running context =>
      have stepped : s.step code (.leave thread) = some (s.setStack thread below) := by
        simp [State.step, atFrame]
      have only : s.OnlyReturns discipline (.leave thread) := ⟨rfl, trivial⟩
      exact ⟨s.setStack thread below, .step only stepped, Or.inr ⟨free, rfl⟩⟩
  | handling task =>
      have stepped : s.step code (.finish thread) = some (s.setStack thread below) := by
        simp [State.step, atFrame]
      have only : s.OnlyReturns discipline (.finish thread) := ⟨rfl, trivial⟩
      exact ⟨s.setStack thread below, .step only stepped, Or.inr ⟨free, rfl⟩⟩
  | executing routine program =>
      rcases Accounted.of_reachableVia reached thread with ⟨held, owns⟩
      have nothingHeld : held = [] := by
        apply List.eq_nil_iff_forall_not_mem.mpr
        intro mutex isHeld
        have owned := (owns.owner mutex).mpr isHeld
        rw [free] at owned
        contradiction
      subst nothingHeld
      rw [← List.nil_append ([] : List Mutex)] at owns
      have others : ∀ mutex other, other ≠ thread → s.owner mutex = some other →
          ∃ lower ∈ ([] : List Mutex), rank mutex ≤ rank lower := by
        intro mutex other _ owned
        rw [free] at owned
        contradiction
      rcases leadsTo_release ascends obeys (terminating.ends program s.shared) reached atFrame owns
        others with ⟨after, leads, misused | ⟨own, same, returned⟩⟩
      · exact ⟨after, leads, Or.inl misused⟩
      · refine ⟨after, leads, Or.inr ⟨?_, returned rfl⟩⟩
        intro mutex
        cases owned : after.owner mutex with
        | none => rfl
        | some owner =>
            by_cases isThread : owner = thread
            · subst isThread
              exact absurd ((own mutex).mp owned) List.not_mem_nil
            · rw [same mutex owner isThread, free] at owned
              contradiction

/-- While no mutex is owned all threads can return. -/
theorem leadsTo_idle {variant : Routine → Shared → ℕ}
    (ascends : rule.Ascends rank) (obeys : discipline.Obeys rule)
    (terminating : code.Terminating variant)
    (reached : ReachedElsewhere discipline s) (free : ∀ mutex, s.owner mutex = none) :
    ∃ after, (State.system code).LeadsTo (State.OnlyReturns discipline) s after ∧
      (after.Misused discipline ∨ after.Idle) := by
  rcases State.exists_bound reached with ⟨bound, unused⟩
  apply System.leadsTo_of_variant
    (motive := fun s => ReachedElsewhere discipline s ∧ (∀ mutex, s.owner mutex = none) ∧
      ∀ thread, bound ≤ thread → s.stack thread = [])
    (fun s => ∑ thread ∈ Finset.range bound, (s.stack thread).length) ?_ ⟨reached, free, unused⟩
  rintro state ⟨reachedState, freeState, unusedState⟩ short
  have begun : ∃ thread, state.stack thread ≠ [] := by
    by_contra none
    simp only [ne_eq, not_exists, not_not] at none
    exact short (Or.inr ⟨none, freeState⟩)
  rcases begun with ⟨thread, notIdle⟩
  rcases List.exists_cons_of_ne_nil notIdle with ⟨frame, below, atFrame⟩
  have inRange : thread < bound := by
    by_contra above
    exact notIdle (unusedState thread (Nat.le_of_not_lt above))
  rcases leadsTo_pop ascends obeys terminating reachedState freeState atFrame with
    ⟨after, leads, misused | ⟨stillFree, popped⟩⟩
  · exact ⟨after, leads, Or.inl (Or.inl misused)⟩
  · have length : ∀ other, (after.stack other).length ≤ (state.stack other).length := by
      intro other
      rw [popped]
      by_cases same : other = thread
      · subst same
        simp [atFrame]
      · rw [Function.update_of_ne same]
    refine ⟨after, leads, Or.inr ⟨⟨reachedState.leadsTo (fun _ _ only => only.2) leads,
      stillFree, ?_⟩, ?_⟩⟩
    · intro other above
      exact List.length_eq_zero_iff.mp
        (Nat.le_zero.mp ((length other).trans (by simp [unusedState other above])))
    · refine Finset.sum_lt_sum (fun other _ => length other)
        ⟨thread, Finset.mem_range.mpr inRange, ?_⟩
      simp [popped, atFrame]

/-- From every reachable state all calls in progress can return. -/
theorem leadsTo_return [Fintype Mutex] {variant : Routine → Shared → ℕ}
    (ascends : rule.Ascends rank) (obeys : discipline.Obeys rule)
    (terminating : code.Terminating variant)
    (reached : ReachedElsewhere discipline s) :
    ∃ after, (State.system code).LeadsTo (State.OnlyReturns discipline) s after ∧
      (after.Misused discipline ∨ after.Idle) := by
  rcases leadsTo_free ascends obeys terminating reached with ⟨middle, leads, misused | free⟩
  · exact ⟨middle, leads, Or.inl misused⟩
  · have reachedMiddle : ReachedElsewhere discipline middle :=
      reached.leadsTo (fun _ _ only => only.2) leads
    rcases leadsTo_idle ascends obeys terminating reachedMiddle free with
      ⟨after, continues, outcome⟩
    exact ⟨after, leads.trans continues, outcome⟩

end

end Concurrency
