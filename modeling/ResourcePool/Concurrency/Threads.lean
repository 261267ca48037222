import Mathlib.Data.List.Nodup
import Mathlib.Logic.Function.Basic
import ResourcePool.Concurrency.Program
import ResourcePool.Transition.System

/-!
# Threads which run contexts

A thread has a stack of frames: it executes routines, runs contexts, and handles the tasks
of the contexts which it runs. Client code runs wherever no routine is innermost.

`State.Unlocked` is what clients may rely on: no task is handled by a thread which owns a
mutex, and no thread tries to lock a mutex which it owns. A discipline of the code ensures
it as long as no routine which dispatches with mutexes does so while its thread runs the
context of the task.
-/

namespace Concurrency

open Transition

abbrev ThreadId := ℕ

inductive Frame (Shared Mutex Task Context Routine : Type) where
  /-- A call which runs the tasks of a context. -/
  | running (context : Context)
  | handling (task : Task)
  | executing (routine : Routine) (rest : Program Shared Mutex Task Routine)

structure State (Shared Mutex Task Context Routine : Type) where
  shared : Shared
  owner : Mutex → Option ThreadId
  /-- The frames of each thread, the innermost first. -/
  stack : ThreadId → List (Frame Shared Mutex Task Context Routine)
  submitted : List Task

inductive Event (Context Routine : Type) where
  | call (thread : ThreadId) (routine : Routine)
  /-- The next step of a routine. A dispatched task runs inside of the call if `inside`. -/
  | proceed (thread : ThreadId) (inside : Bool)
  | enter (thread : ThreadId) (context : Context)
  | leave (thread : ThreadId)
  /-- A submitted task begins to run. -/
  | handle (thread : ThreadId) (task : ℕ)
  | finish (thread : ThreadId)

namespace Frame

variable {Shared Mutex Task Context Routine : Type}

def isClient : Frame Shared Mutex Task Context Routine → Bool
  | running _ | handling _ => true
  | executing .. => false

def runs [DecidableEq Context] (context : Context) :
    Frame Shared Mutex Task Context Routine → Bool
  | running other => other = context
  | handling _ | executing .. => false

end Frame

namespace State

variable {Shared Mutex Task Context Routine : Type}

def initially (shared : Shared) : State Shared Mutex Task Context Routine where
  shared := shared
  owner _ := none
  stack _ := []
  submitted := []

def setStack (s : State Shared Mutex Task Context Routine) (thread : ThreadId)
    (frames : List (Frame Shared Mutex Task Context Routine)) :
    State Shared Mutex Task Context Routine :=
  { s with stack := Function.update s.stack thread frames }

def setOwner [DecidableEq Mutex] (s : State Shared Mutex Task Context Routine) (mutex : Mutex)
    (owner : Option ThreadId) : State Shared Mutex Task Context Routine :=
  { s with owner := Function.update s.owner mutex owner }

def submit (s : State Shared Mutex Task Context Routine) (task : Task) :
    State Shared Mutex Task Context Routine :=
  { s with submitted := s.submitted ++ [task] }

/-- Client code is innermost in the thread. -/
def inClient (s : State Shared Mutex Task Context Routine) (thread : ThreadId) : Bool :=
  (s.stack thread).head?.all Frame.isClient

/-- The task which the thread is the next to dispatch, with the routine which does. -/
def dispatching (s : State Shared Mutex Task Context Routine) (thread : ThreadId) :
    Option (Routine × Task) :=
  match s.stack thread with
  | .executing routine (.dispatch task _) :: _ => some (routine, task)
  | _ => none

theorem dispatching_eq_some {s : State Shared Mutex Task Context Routine} {thread : ThreadId}
    {routine : Routine} {task : Task} :
    s.dispatching thread = some (routine, task) ↔
      ∃ next below, s.stack thread = .executing routine (.dispatch task next) :: below := by
  simp only [dispatching]
  split
  · next atDispatch => simp [atDispatch]
  · next notAtDispatch =>
      constructor
      · intro isSome
        contradiction
      · rintro ⟨next, below, atDispatch⟩
        exact absurd atDispatch (notAtDispatch routine task next below)

variable [DecidableEq Mutex] [DecidableEq Context]

def runs (s : State Shared Mutex Task Context Routine) (thread : ThreadId) (context : Context) :
    Bool :=
  (s.stack thread).any (Frame.runs context)

/-- The next step of a routine, of which `program` is left and which `below` has called. -/
def proceed (code : Code Shared Mutex Task Context Routine)
    (s : State Shared Mutex Task Context Routine) (thread : ThreadId) (inside : Bool)
    (routine : Routine) (below : List (Frame Shared Mutex Task Context Routine)) :
    Program Shared Mutex Task Routine → Option (State Shared Mutex Task Context Routine)
  | .lock mutex next =>
      match s.owner mutex with
      | some _ => none
      | none =>
          some ((s.setOwner mutex (some thread)).setStack thread (.executing routine next :: below))
  | .unlock mutex next =>
      if s.owner mutex = some thread then
        some ((s.setOwner mutex none).setStack thread (.executing routine next :: below))
      else none
  | .access effect next =>
      (effect s.shared).map fun shared =>
        { s with shared := shared }.setStack thread (.executing routine (next s.shared) :: below)
  | .post task next => some ((s.submit task).setStack thread (.executing routine next :: below))
  | .dispatch task next =>
      if inside then
        if s.runs thread (code.contextOf task) then
          some (s.setStack thread (.handling task :: .executing routine next :: below))
        else none
      else some ((s.submit task).setStack thread (.executing routine next :: below))
  | .jump other => some (s.setStack thread (.executing other (code.body other) :: below))
  | .done => some (s.setStack thread below)

def step (code : Code Shared Mutex Task Context Routine)
    (s : State Shared Mutex Task Context Routine) :
    Event Context Routine → Option (State Shared Mutex Task Context Routine)
  | .call thread routine =>
      if code.callable routine && s.inClient thread then
        some (s.setStack thread (.executing routine (code.body routine) :: s.stack thread))
      else none
  | .proceed thread inside =>
      match s.stack thread with
      | .executing routine program :: below => s.proceed code thread inside routine below program
      | _ => none
  | .enter thread context =>
      if s.inClient thread then some (s.setStack thread (.running context :: s.stack thread))
      else none
  | .leave thread =>
      match s.stack thread with
      | .running _ :: below => some (s.setStack thread below)
      | _ => none
  | .handle thread index =>
      match s.stack thread, s.submitted[index]? with
      | .running context :: below, some task =>
          if code.contextOf task = context then
            some ({ s with submitted := s.submitted.eraseIdx index }.setStack thread
              (.handling task :: .running context :: below))
          else none
      | _, _ => none
  | .finish thread =>
      match s.stack thread with
      | .handling _ :: below => some (s.setStack thread below)
      | _ => none

/-- Threads which have not begun, whatever state they share. -/
def system (code : Code Shared Mutex Task Context Routine) :
    System (State Shared Mutex Task Context Routine) (Event Context Routine) where
  Initial s := ∃ shared, s = initially shared
  step s event := s.step code event

omit [DecidableEq Mutex] [DecidableEq Context] in
/-- No task is handled by a thread which owns a mutex, and no thread tries to lock a mutex
which it owns. -/
structure Unlocked (s : State Shared Mutex Task Context Routine) : Prop where
  handling : ∀ thread task below, s.stack thread = .handling task :: below →
    ∀ mutex, s.owner mutex ≠ some thread
  locking : ∀ thread routine mutex next below,
    s.stack thread = .executing routine (.lock mutex next) :: below → s.owner mutex ≠ some thread

/-- The thread which is the next to proceed does not dispatch a task with mutexes while it
runs the context of the task. -/
def DispatchesElsewhere {code : Code Shared Mutex Task Context Routine}
    (discipline : Discipline code) (s : State Shared Mutex Task Context Routine) :
    Event Context Routine → Prop
  | .proceed thread _ => ∀ dispatched ∈ s.dispatching thread,
      discipline.dispatchesLocked dispatched.1 = true →
        s.runs thread (code.contextOf dispatched.2) = false
  | _ => True

end State

/-! ### What the threads own -/

section

variable {Shared Mutex Task Context Routine : Type}
  {code : Code Shared Mutex Task Context Routine}

/-- What a frame says of the mutexes which its call holds. -/
def Frame.Holds (discipline : Discipline code) :
    Frame Shared Mutex Task Context Routine → List Mutex → Prop
  | .running _, held | .handling _, held => held = []
  | .executing routine rest, held =>
      rest.Disciplined discipline.heldAt (discipline.dispatchesLocked routine) held

/-- The innermost call holds the mutexes, and all others hold none. -/
def StackHolds (discipline : Discipline code) :
    List (Frame Shared Mutex Task Context Routine) → List Mutex → Prop
  | [], held => held = []
  | frame :: below, held =>
      frame.Holds discipline held ∧ ∀ other ∈ below, other.Holds discipline []

theorem StackHolds.pop {discipline : Discipline code}
    {below : List (Frame Shared Mutex Task Context Routine)}
    (others : ∀ other ∈ below, other.Holds discipline []) : StackHolds discipline below [] := by
  cases below with
  | nil => rfl
  | cons frame below =>
      exact ⟨others frame (by simp), fun other member => others other (by simp [member])⟩

theorem StackHolds.push {discipline : Discipline code}
    {frames : List (Frame Shared Mutex Task Context Routine)}
    {frame : Frame Shared Mutex Task Context Routine}
    (holds : StackHolds discipline frames []) (entered : frame.Holds discipline []) :
    StackHolds discipline (frame :: frames) [] := by
  refine ⟨entered, ?_⟩
  cases frames with
  | nil => simp
  | cons innermost below =>
      intro other member
      rcases List.mem_cons.mp member with rfl | deeper
      · exact holds.1
      · exact holds.2 other deeper

/-- The mutexes which a thread owns are those which its innermost call holds. -/
structure Owns (discipline : Discipline code)
    (s : State Shared Mutex Task Context Routine) (thread : ThreadId) (held : List Mutex) :
    Prop where
  stack : StackHolds discipline (s.stack thread) held
  nodup : held.Nodup
  owner : ∀ mutex, s.owner mutex = some thread ↔ mutex ∈ held

/-- The mutexes of all threads are accounted for. -/
def Accounted (discipline : Discipline code)
    (s : State Shared Mutex Task Context Routine) : Prop :=
  ∀ thread, ∃ held, Owns discipline s thread held

namespace Owns

variable {discipline : Discipline code} {s : State Shared Mutex Task Context Routine}
  {thread : ThreadId} {held : List Mutex}

theorem client (owns : Owns discipline s thread held) (inClient : s.inClient thread = true) :
    held = [] := by
  have stack := owns.stack
  cases frames : s.stack thread with
  | nil => simpa only [frames, StackHolds] using stack
  | cons frame below =>
      rw [frames] at stack
      simp only [State.inClient, frames, List.head?_cons, Option.all_some] at inClient
      cases frame with
      | running context => exact stack.1
      | handling task => exact stack.1
      | executing routine rest => contradiction

/-- A mutex which changes between free and owned by one thread concerns no other thread. -/
theorem setOwner_other [DecidableEq Mutex] {other : ThreadId} {mutex : Mutex}
    {owner : Option ThreadId} {frames : List (Frame Shared Mutex Task Context Routine)}
    (owns : Owns discipline s other held) (different : other ≠ thread) (notHeld : mutex ∉ held)
    (notGiven : owner ≠ some other) :
    Owns discipline ((s.setOwner mutex owner).setStack thread frames) other held := by
  refine ⟨?_, owns.nodup, ?_⟩
  · simpa only [State.setStack, State.setOwner, Function.update_of_ne different] using owns.stack
  · intro lockable
    by_cases isMutex : lockable = mutex
    · subst isMutex
      simp [State.setStack, State.setOwner, notHeld, notGiven]
    · simp [State.setStack, State.setOwner, isMutex, owns.owner]

end Owns

namespace Accounted

variable {discipline : Discipline code} {s after : State Shared Mutex Task Context Routine}
  {thread : ThreadId}

theorem initially (shared : Shared) :
    Accounted discipline
      (State.initially shared : State Shared Mutex Task Context Routine) := by
  intro thread
  exact ⟨[], rfl, List.nodup_nil, by simp [State.initially]⟩

/-- A thread which moves without its mutexes leaves those of the others alone. -/
theorem move (accounted : Accounted discipline s)
    {frames : List (Frame Shared Mutex Task Context Routine)} (sameOwner : after.owner = s.owner)
    (moved : after.stack = Function.update s.stack thread frames)
    (holds : ∀ held, Owns discipline s thread held → StackHolds discipline frames held) :
    Accounted discipline after := by
  intro other
  rcases accounted other with ⟨held, owns⟩
  refine ⟨held, ?_, owns.nodup, by rw [sameOwner]; exact owns.owner⟩
  rw [moved]
  by_cases same : other = thread
  · subst same
    rw [Function.update_self]
    exact holds held owns
  · rw [Function.update_of_ne same]
    exact owns.stack

/-- Client code enters a frame which holds no mutex. -/
theorem push (accounted : Accounted discipline s)
    {frame : Frame Shared Mutex Task Context Routine} (sameOwner : after.owner = s.owner)
    (moved : after.stack = Function.update s.stack thread (frame :: s.stack thread))
    (inClient : s.inClient thread = true) (entered : frame.Holds discipline []) :
    Accounted discipline after := by
  apply accounted.move sameOwner moved
  intro held owns
  have stack := owns.stack
  rcases owns.client inClient with rfl
  exact stack.push entered

/-- Client code returns from its frame. -/
theorem pop (accounted : Accounted discipline s)
    {frame : Frame Shared Mutex Task Context Routine}
    {below : List (Frame Shared Mutex Task Context Routine)} (sameOwner : after.owner = s.owner)
    (atFrame : s.stack thread = frame :: below) (isClient : frame.isClient = true)
    (moved : after.stack = Function.update s.stack thread below) :
    Accounted discipline after := by
  apply accounted.move sameOwner moved
  intro held owns
  have stack := owns.stack
  have free := owns.client (by simp [State.inClient, atFrame, isClient])
  rw [atFrame] at stack
  rw [free]
  exact StackHolds.pop stack.2

/-- Threads whose mutexes are accounted for are unlocked where clients rely on it. -/
theorem unlocked (accounted : Accounted discipline s) : s.Unlocked := by
  constructor
  · intro thread task below atHandler mutex isOwner
    rcases accounted thread with ⟨held, owns⟩
    have stack := owns.stack
    rw [atHandler] at stack
    rcases stack with ⟨rfl, _⟩
    have isHeld := (owns.owner mutex).mp isOwner
    contradiction
  · intro thread routine mutex next below atLock isOwner
    rcases accounted thread with ⟨held, owns⟩
    have stack := owns.stack
    rw [atLock] at stack
    exact stack.1.1 ((owns.owner mutex).mp isOwner)

variable [DecidableEq Mutex] {mutex : Mutex} {routine : Routine}
  {next : Program Shared Mutex Task Routine}
  {below : List (Frame Shared Mutex Task Context Routine)}

theorem lock (accounted : Accounted discipline s) (free : s.owner mutex = none)
    (atLock : s.stack thread = .executing routine (.lock mutex next) :: below) :
    Accounted discipline
      ((s.setOwner mutex (some thread)).setStack thread (.executing routine next :: below)) := by
  intro other
  rcases accounted other with ⟨held, owns⟩
  have notHeld : mutex ∉ held := by
    intro isHeld
    have owned := (owns.owner mutex).mpr isHeld
    rw [free] at owned
    contradiction
  by_cases same : other = thread
  · subst same
    have stack := owns.stack
    rw [atLock] at stack
    refine ⟨mutex :: held, ?_, List.nodup_cons.mpr ⟨notHeld, owns.nodup⟩, ?_⟩
    · simp only [State.setStack, Function.update_self]
      exact ⟨stack.1.2, stack.2⟩
    · intro lockable
      by_cases isMutex : lockable = mutex
      · simp [State.setStack, State.setOwner, isMutex]
      · simp [State.setStack, State.setOwner, isMutex, owns.owner]
  · have notGiven : some thread ≠ some other := fun given => same (Option.some.inj given).symm
    exact ⟨held, owns.setOwner_other same notHeld notGiven⟩

theorem unlock (accounted : Accounted discipline s) (owned : s.owner mutex = some thread)
    (atUnlock : s.stack thread = .executing routine (.unlock mutex next) :: below) :
    Accounted discipline
      ((s.setOwner mutex none).setStack thread (.executing routine next :: below)) := by
  intro other
  rcases accounted other with ⟨held, owns⟩
  by_cases same : other = thread
  · subst same
    have stack := owns.stack
    rw [atUnlock] at stack
    rcases stack with ⟨⟨isLast, disciplined⟩, others⟩
    rcases List.head?_eq_some_iff.mp isLast with ⟨remaining, rfl⟩
    rcases List.nodup_cons.mp owns.nodup with ⟨notAgain, nodup⟩
    refine ⟨remaining, ?_, nodup, ?_⟩
    · simp only [State.setStack, Function.update_self]
      exact ⟨disciplined, others⟩
    · intro lockable
      by_cases isMutex : lockable = mutex
      · simp [State.setStack, State.setOwner, isMutex, notAgain]
      · simp [State.setStack, State.setOwner, isMutex, owns.owner]
  · have notHeld : mutex ∉ held := by
      intro isHeld
      rw [(owns.owner mutex).mpr isHeld, Option.some.injEq] at owned
      exact same owned
    exact ⟨held, owns.setOwner_other same notHeld (by simp)⟩

/-- A routine takes its next step. -/
theorem proceed [DecidableEq Context] (accounted : Accounted discipline s) {inside : Bool}
    {program : Program Shared Mutex Task Routine}
    (elsewhere : s.DispatchesElsewhere discipline (.proceed thread inside))
    (atProgram : s.stack thread = .executing routine program :: below)
    (proceeded : s.proceed code thread inside routine below program = some after) :
    Accounted discipline after := by
  have advances : ∀ {other : Routine} {rest : Program Shared Mutex Task Routine},
      (∀ held, program.Disciplined discipline.heldAt (discipline.dispatchesLocked routine) held →
        rest.Disciplined discipline.heldAt (discipline.dispatchesLocked other) held) →
      ∀ held, Owns discipline s thread held →
        StackHolds discipline (.executing other rest :: below) held := by
    intro other rest continues held owns
    have stack := owns.stack
    rw [atProgram] at stack
    exact ⟨continues held stack.1, stack.2⟩
  cases program with
  | lock mutex next =>
      simp only [State.proceed] at proceeded
      split at proceeded
      · contradiction
      · next free =>
          simp only [Option.some.injEq] at proceeded
          subst proceeded
          exact accounted.lock free atProgram
  | unlock mutex next =>
      simp only [State.proceed, Option.ite_none_right_eq_some, Option.some.injEq] at proceeded
      rcases proceeded with ⟨owned, rfl⟩
      exact accounted.unlock owned atProgram
  | access effect next =>
      simp only [State.proceed, Option.map_eq_some_iff] at proceeded
      rcases proceeded with ⟨shared, _, rfl⟩
      exact accounted.move rfl rfl (advances fun _ disciplined => disciplined s.shared)
  | post task next =>
      simp only [State.proceed, Option.some.injEq] at proceeded
      subst proceeded
      exact accounted.move rfl rfl (advances fun _ disciplined => disciplined)
  | dispatch task next =>
      simp only [State.proceed] at proceeded
      split at proceeded
      · rw [Option.ite_none_right_eq_some, Option.some.injEq] at proceeded
        rcases proceeded with ⟨runs, rfl⟩
        refine accounted.move rfl rfl ?_
        intro held owns
        have stack := owns.stack
        rw [atProgram] at stack
        rcases stack with ⟨⟨locked, disciplined⟩, others⟩
        -- A task which runs inside of the call is dispatched without mutexes.
        have free : held = [] := by
          by_contra holding
          have isDispatched := State.dispatching_eq_some.mpr ⟨next, below, atProgram⟩
          have notRuns := elsewhere _ isDispatched (locked.mpr holding)
          rw [runs] at notRuns
          contradiction
        subst free
        have calling : StackHolds discipline (.executing routine next :: below) [] :=
          ⟨disciplined, others⟩
        exact calling.push rfl
      · rw [Option.some.injEq] at proceeded
        subst proceeded
        exact accounted.move rfl rfl (advances fun _ disciplined => disciplined.2)
  | jump other =>
      simp only [State.proceed, Option.some.injEq] at proceeded
      subst proceeded
      refine accounted.move rfl rfl (advances ?_)
      rintro _ rfl
      exact discipline.disciplined other
  | done =>
      simp only [State.proceed, Option.some.injEq] at proceeded
      subst proceeded
      refine accounted.move rfl rfl ?_
      intro held owns
      have stack := owns.stack
      rw [atProgram] at stack
      rcases stack with ⟨rfl, others⟩
      exact StackHolds.pop others

theorem step [DecidableEq Context] (accounted : Accounted discipline s)
    {event : Event Context Routine} (elsewhere : s.DispatchesElsewhere discipline event)
    (stepped : s.step code event = some after) : Accounted discipline after := by
  cases event with
  | call thread routine =>
      simp only [State.step, Option.ite_none_right_eq_some, Option.some.injEq,
        Bool.and_eq_true] at stepped
      rcases stepped with ⟨⟨callable, inClient⟩, rfl⟩
      refine accounted.push rfl rfl inClient ?_
      have disciplined := discipline.disciplined routine
      rwa [discipline.callable routine callable] at disciplined
  | proceed thread inside =>
      simp only [State.step] at stepped
      split at stepped
      · next atProgram => exact accounted.proceed elsewhere atProgram stepped
      · contradiction
  | enter thread context =>
      simp only [State.step, Option.ite_none_right_eq_some, Option.some.injEq] at stepped
      rcases stepped with ⟨inClient, rfl⟩
      exact accounted.push rfl rfl inClient rfl
  | leave thread =>
      simp only [State.step] at stepped
      split at stepped
      · next atFrame =>
          rcases Option.some.inj stepped with rfl
          exact accounted.pop rfl atFrame rfl rfl
      · contradiction
  | handle thread index =>
      simp only [State.step] at stepped
      split at stepped
      · next context below task atFrame _ =>
          simp only [Option.ite_none_right_eq_some, Option.some.injEq] at stepped
          rcases stepped with ⟨_, rfl⟩
          have inClient : s.inClient thread = true := by
            simp [State.inClient, atFrame, Frame.isClient]
          refine accounted.push rfl ?_ inClient (show Frame.Holds _ (.handling task) [] from rfl)
          simp [State.setStack, atFrame]
      · contradiction
  | finish thread =>
      simp only [State.step] at stepped
      split at stepped
      · next atFrame =>
          rcases Option.some.inj stepped with rfl
          exact accounted.pop rfl atFrame rfl rfl
      · contradiction

/-- A thread which dispatches a task with mutexes, while it runs the context of the task,
may handle the task with these mutexes. -/
theorem not_unlocked_of_dispatch [DecidableEq Context] (accounted : Accounted discipline s)
    {inside : Bool} (here : ¬s.DispatchesElsewhere discipline (.proceed thread inside)) :
    ∃ after, s.step code (.proceed thread true) = some after ∧ ¬after.Unlocked := by
  simp only [State.DispatchesElsewhere, not_forall, Bool.not_eq_false] at here
  rcases here with ⟨⟨routine, task⟩, isDispatched, dispatchesLocked, runs⟩
  rcases State.dispatching_eq_some.mp isDispatched with ⟨next, below, atDispatch⟩
  rcases accounted thread with ⟨held, owns⟩
  have stack := owns.stack
  rw [atDispatch] at stack
  have holding := stack.1.1.mp dispatchesLocked
  rcases List.exists_mem_of_ne_nil held holding with ⟨mutex, isHeld⟩
  have isOwner := (owns.owner mutex).mpr isHeld
  refine ⟨s.setStack thread (.handling task :: .executing routine next :: below), ?_, ?_⟩
  · simp [State.step, atDispatch, State.proceed, runs]
  · intro unlocked
    exact unlocked.handling thread task (.executing routine next :: below)
      (by simp [State.setStack]) mutex isOwner

theorem of_reachableVia [DecidableEq Context]
    (reached : (State.system code).ReachableVia (State.DispatchesElsewhere discipline) s) :
    Accounted discipline s := by
  apply System.ReachableVia.invariant ?_ ?_ reached
  · rintro _ ⟨shared, rfl⟩
    exact initially shared
  · intro before event after accounted elsewhere stepped
    exact accounted.step elsewhere stepped

end Accounted

/-! ### A thread by itself -/

section

variable [DecidableEq Mutex] [DecidableEq Context]

/-- The thread is in a call which holds `held`, and the other threads own nothing. -/
structure Alone (s : State Shared Mutex Task Context Routine) (thread : ThreadId)
    (held : List Mutex) (routine : Routine) (program : Program Shared Mutex Task Routine)
    (below : List (Frame Shared Mutex Task Context Routine)) : Prop where
  nodup : held.Nodup
  owner : ∀ mutex, s.owner mutex = if mutex ∈ held then some thread else none
  stack : s.stack thread = .executing routine program :: below

/-- Steps of the thread return from its call, with the tasks they submit. -/
def Returns (code : Code Shared Mutex Task Context Routine)
    (s : State Shared Mutex Task Context Routine) (thread : ThreadId)
    (below : List (Frame Shared Mutex Task Context Routine)) (result : Shared × List Task) :
    Prop :=
  ∃ steps, (State.system code).execute s (List.replicate steps (.proceed thread false)) =
    some ⟨result.1, fun _ => none, Function.update s.stack thread below,
      s.submitted ++ result.2⟩

theorem Returns.of_step (s : State Shared Mutex Task Context Routine)
    {after : State Shared Mutex Task Context Routine} {thread : ThreadId}
    {below frames : List (Frame Shared Mutex Task Context Routine)} {result : Shared × List Task}
    (submits : List Task) (returns : Returns code after thread below result)
    (stepped : s.step code (.proceed thread false) = some after)
    (moved : after.stack = Function.update s.stack thread frames)
    (submitted : after.submitted = s.submitted ++ submits) :
    Returns code s thread below (result.1, submits ++ result.2) := by
  rcases returns with ⟨steps, executed⟩
  refine ⟨steps + 1, ?_⟩
  rw [moved, Function.update_idem, submitted, List.append_assoc] at executed
  change (s.step code (.proceed thread false)).bind _ = _
  rw [stepped]
  exact executed

theorem Returns.of_silent_step (s : State Shared Mutex Task Context Routine)
    {after : State Shared Mutex Task Context Routine} {thread : ThreadId}
    {below frames : List (Frame Shared Mutex Task Context Routine)} {result : Shared × List Task}
    (returns : Returns code after thread below result)
    (stepped : s.step code (.proceed thread false) = some after)
    (moved : after.stack = Function.update s.stack thread frames)
    (same : after.submitted = s.submitted) : Returns code s thread below result :=
  Returns.of_step s [] returns stepped moved (same.trans (List.append_nil _).symm)

/-- A program does in steps of its thread what it does by itself. -/
theorem returns_of_program {discipline : Discipline code} {thread : ThreadId}
    {call : Routine → Shared → Option (Shared × List Task)}
    {below : List (Frame Shared Mutex Task Context Routine)}
    (calls : ∀ (s : State Shared Mutex Task Context Routine) (routine : Routine)
      (result : Shared × List Task),
      Alone s thread (discipline.heldAt routine) routine (code.body routine) below →
        call routine s.shared = some result → Returns code s thread below result)
    {program : Program Shared Mutex Task Routine} {s : State Shared Mutex Task Context Routine}
    {held : List Mutex} {routine : Routine} {result : Shared × List Task}
    (alone : Alone s thread held routine program below)
    (disciplined :
      program.Disciplined discipline.heldAt (discipline.dispatchesLocked routine) held)
    (isResult : program.alone call s.shared = some result) :
    Returns code s thread below result := by
  have stack := alone.stack
  induction program generalizing s held result with
  | lock mutex next ih =>
      have free : s.owner mutex = none := by rw [alone.owner, if_neg disciplined.1]
      have locked : Alone ((s.setOwner mutex (some thread)).setStack thread
          (.executing routine next :: below)) thread (mutex :: held) routine next below := by
        refine ⟨List.nodup_cons.mpr ⟨disciplined.1, alone.nodup⟩, ?_, by simp [State.setStack]⟩
        intro other
        by_cases same : other = mutex
        · simp [State.setStack, State.setOwner, same]
        · simp [State.setStack, State.setOwner, same, alone.owner]
      refine (ih locked disciplined.2 isResult locked.stack).of_silent_step s ?_ rfl rfl
      simp [State.step, stack, State.proceed, free]
  | unlock mutex next ih =>
      rcases disciplined with ⟨isLast, disciplined⟩
      rcases List.head?_eq_some_iff.mp isLast with ⟨remaining, rfl⟩
      rcases List.nodup_cons.mp alone.nodup with ⟨notAgain, nodup⟩
      have owned : s.owner mutex = some thread := by simp [alone.owner]
      have unlocked : Alone ((s.setOwner mutex none).setStack thread
          (.executing routine next :: below)) thread remaining routine next below := by
        refine ⟨nodup, ?_, by simp [State.setStack]⟩
        intro other
        by_cases same : other = mutex
        · simp [State.setStack, State.setOwner, same, notAgain]
        · simp [State.setStack, State.setOwner, same, alone.owner]
      refine (ih unlocked disciplined isResult unlocked.stack).of_silent_step s ?_ rfl rfl
      simp [State.step, stack, State.proceed, owned]
  | access effect next ih =>
      simp only [Program.alone, Option.bind_eq_some_iff] at isResult
      rcases isResult with ⟨changed, isEffect, isResult⟩
      have accessed : Alone ({ s with shared := changed }.setStack thread
          (.executing routine (next s.shared) :: below)) thread held routine (next s.shared)
          below := ⟨alone.nodup, alone.owner, by simp [State.setStack]⟩
      refine (ih s.shared accessed (disciplined s.shared) isResult accessed.stack).of_silent_step s
        ?_ rfl rfl
      simp [State.step, stack, State.proceed, isEffect]
  | post task next ih =>
      simp only [Program.alone, Option.map_eq_some_iff] at isResult
      rcases isResult with ⟨rest, isResult, rfl⟩
      have posted : Alone ((s.submit task).setStack thread (.executing routine next :: below))
          thread held routine next below := ⟨alone.nodup, alone.owner, by simp [State.setStack]⟩
      refine (ih posted disciplined isResult posted.stack).of_step s [task] ?_ rfl rfl
      simp [State.step, stack, State.proceed]
  | dispatch task next ih =>
      simp only [Program.alone, Option.map_eq_some_iff] at isResult
      rcases isResult with ⟨rest, isResult, rfl⟩
      have submitted : Alone ((s.submit task).setStack thread (.executing routine next :: below))
          thread held routine next below := ⟨alone.nodup, alone.owner, by simp [State.setStack]⟩
      refine (ih submitted disciplined.2 isResult submitted.stack).of_step s [task] ?_ rfl rfl
      simp [State.step, stack, State.proceed]
  | jump other =>
      rcases disciplined with rfl
      have jumped : Alone (s.setStack thread (.executing other (code.body other) :: below)) thread
          (discipline.heldAt other) other (code.body other) below :=
        ⟨alone.nodup, alone.owner, by simp [State.setStack]⟩
      refine (calls _ other result jumped isResult).of_silent_step s ?_ rfl rfl
      simp [State.step, stack, State.proceed]
  | done =>
      rcases disciplined with rfl
      rcases Option.some.inj isResult with rfl
      have free : s.owner = fun _ => none := by
        funext mutex
        simp [alone.owner]
      refine ⟨1, ?_⟩
      simp [System.execute, State.system, State.step, stack, State.proceed, State.setStack, free]

/-- A routine which is called while no thread owns a mutex does in steps of its thread what
it does by itself. -/
theorem returns_of_code (discipline : Discipline code) {thread : ThreadId} {fuel : ℕ}
    {below : List (Frame Shared Mutex Task Context Routine)}
    {s : State Shared Mutex Task Context Routine} {routine : Routine}
    {result : Shared × List Task}
    (alone : Alone s thread (discipline.heldAt routine) routine (code.body routine) below)
    (isResult : code.alone fuel routine s.shared = some result) :
    Returns code s thread below result := by
  induction fuel generalizing s routine result with
  | zero => contradiction
  | succ fuel ih =>
      exact returns_of_program (fun _ _ _ alone isResult => ih alone isResult) alone
        (discipline.disciplined routine) isResult

end

end

end Concurrency
