import Mathlib.Data.Nat.Notation

/-!
# Routines of threads

A `Program` is what is left to execute of a call of a routine: it locks and unlocks
mutexes, accesses the state which the threads share, and submits tasks to contexts. A loop
is a jump to a routine.

`Program.Disciplined` follows the mutexes which a call holds through all paths of a
program, and `Discipline` collects what it finds for the routines of a `Code`.
-/

namespace Concurrency

inductive Program (Shared Mutex Task Routine : Type) where
  | lock (mutex : Mutex) (next : Program Shared Mutex Task Routine)
  | unlock (mutex : Mutex) (next : Program Shared Mutex Task Routine)
  /-- What follows an access depends on the state before it. -/
  | access (effect : Shared → Option Shared) (next : Shared → Program Shared Mutex Task Routine)
  /-- The task runs later, in a thread which runs its context. -/
  | post (task : Task) (next : Program Shared Mutex Task Routine)
  /-- The task may run now, if the thread is running its context. -/
  | dispatch (task : Task) (next : Program Shared Mutex Task Routine)
  | jump (routine : Routine)
  | done

structure Code (Shared Mutex Task Context Routine : Type) where
  body : Routine → Program Shared Mutex Task Routine
  contextOf : Task → Context
  /-- The routines which clients call. -/
  callable : Routine → Bool

namespace Program

variable {Shared Mutex Task Routine : Type}

def postEach (tasks : List Task) (next : Program Shared Mutex Task Routine) :
    Program Shared Mutex Task Routine :=
  tasks.foldr post next

/-- A call which holds the mutexes `held`, the last one locked first, locks none of them
again, unlocks them in the reverse order, and returns without any. It dispatches with
mutexes just if `dispatchesLocked`. -/
def Disciplined (heldAt : Routine → List Mutex) (dispatchesLocked : Bool) :
    List Mutex → Program Shared Mutex Task Routine → Prop
  | held, lock mutex next =>
      mutex ∉ held ∧ Disciplined heldAt dispatchesLocked (mutex :: held) next
  | held, unlock mutex next =>
      held.head? = some mutex ∧ Disciplined heldAt dispatchesLocked held.tail next
  | held, access _ next =>
      ∀ shared, Disciplined heldAt dispatchesLocked held (next shared)
  | held, post _ next => Disciplined heldAt dispatchesLocked held next
  | held, dispatch _ next =>
      (dispatchesLocked = true ↔ held ≠ []) ∧ Disciplined heldAt dispatchesLocked held next
  | held, jump routine => held = heldAt routine
  | held, done => held = []

/-- What a program does by itself, if its tasks run later: the state it leaves, and the
tasks it submits. -/
def alone (call : Routine → Shared → Option (Shared × List Task)) :
    Program Shared Mutex Task Routine → Shared → Option (Shared × List Task)
  | lock _ next, shared | unlock _ next, shared => next.alone call shared
  | access effect next, shared =>
      (effect shared).bind fun after => (next shared).alone call after
  | post task next, shared | dispatch task next, shared =>
      (next.alone call shared).map fun result => (result.1, task :: result.2)
  | jump routine, shared => call routine shared
  | done, shared => some (shared, [])

theorem alone_postEach {call : Routine → Shared → Option (Shared × List Task)}
    {next : Program Shared Mutex Task Routine} (tasks : List Task) (shared : Shared) :
    (postEach tasks next).alone call shared =
      (next.alone call shared).map fun result => (result.1, tasks ++ result.2) := by
  induction tasks with
  | nil => simp [postEach]
  | cons task tasks ih =>
      change ((postEach tasks next).alone call shared).map _ = _
      rw [ih, Option.map_map]
      rfl

theorem disciplined_postEach {heldAt : Routine → List Mutex} {dispatchesLocked : Bool}
    {held : List Mutex} {next : Program Shared Mutex Task Routine} (tasks : List Task)
    (disciplined : next.Disciplined heldAt dispatchesLocked held) :
    (postEach tasks next).Disciplined heldAt dispatchesLocked held := by
  induction tasks with
  | nil => exact disciplined
  | cons task tasks ih => exact ih

end Program

/-- What a call does by itself, with at most `fuel` jumps. -/
def Code.alone {Shared Mutex Task Context Routine : Type}
    (code : Code Shared Mutex Task Context Routine) :
    ℕ → Routine → Shared → Option (Shared × List Task)
  | 0, _, _ => none
  | fuel + 1, routine, shared => (code.body routine).alone (code.alone fuel) shared

/-- The mutexes which a call holds where each routine begins, and the routines which
dispatch tasks while they hold mutexes. -/
structure Discipline {Shared Mutex Task Context Routine : Type}
    (code : Code Shared Mutex Task Context Routine) where
  heldAt : Routine → List Mutex
  dispatchesLocked : Routine → Bool
  callable : ∀ routine, code.callable routine = true → heldAt routine = []
  disciplined : ∀ routine,
    (code.body routine).Disciplined heldAt (dispatchesLocked routine) (heldAt routine)

end Concurrency
