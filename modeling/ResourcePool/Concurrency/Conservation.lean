import Mathlib.Algebra.BigOperators.Group.List.Basic
import Mathlib.Data.Finsupp.Weight
import Mathlib.Tactic.Abel
import ResourcePool.Concurrency.Threads

/-!
# What threads hand on

Something of which there is a quantity may be in the state which threads share, in the
hands of a call, or with a task which is submitted. A call gets some from its caller, takes
some from the shared state or puts some there at its accesses, and passes some to the tasks
it submits. If each routine accounts for what it gets, no interleaving of threads makes or
loses any.
-/

namespace Concurrency

open Transition

/-- What of a quantity is where. -/
structure Ledger (Shared Task Routine M : Type) where
  stored : Shared → M
  passed : Task → M
  /-- What the caller of a routine gives to the call. -/
  given : Routine → M

variable {Shared Mutex Task Context Routine M : Type} [AddCommMonoid M]

namespace Program

/-- A call which has `carried` in its hands accounts for it in all that it has yet to do. -/
def Carries (ledger : Ledger Shared Task Routine M) :
    M → Program Shared Mutex Task Routine → Prop
  | carried, lock _ next => Carries ledger carried next
  | carried, unlock _ next => Carries ledger carried next
  | carried, access effect next =>
      ∀ shared after, effect shared = some after →
        ∃ later, ledger.stored after + later = ledger.stored shared + carried ∧
          Carries ledger later (next shared)
  | carried, post task next =>
      ∃ later, carried = ledger.passed task + later ∧ Carries ledger later next
  | carried, dispatch task next =>
      ∃ later, carried = ledger.passed task + later ∧ Carries ledger later next
  | carried, jump routine => carried = ledger.given routine
  | carried, done => carried = 0

theorem carries_lock {ledger : Ledger Shared Task Routine M} {carried : M} {mutex : Mutex}
    {next : Program Shared Mutex Task Routine} (carries : next.Carries ledger carried) :
    (lock mutex next).Carries ledger carried :=
  carries

theorem carries_read {ledger : Ledger Shared Task Routine M} {carried : M}
    {next : Shared → Program Shared Mutex Task Routine}
    (carries : ∀ shared, (next shared).Carries ledger carried) :
    (access some next).Carries ledger carried := by
  intro shared after accessed
  rcases Option.some.inj accessed with rfl
  exact ⟨carried, rfl, carries shared⟩

theorem carries_postEach {ledger : Ledger Shared Task Routine M} {later : M}
    {next : Program Shared Mutex Task Routine} (tasks : List Task)
    (carries : next.Carries ledger later) :
    (postEach tasks next).Carries ledger ((tasks.map ledger.passed).sum + later) := by
  induction tasks with
  | nil => simpa [postEach] using carries
  | cons task tasks ih =>
      refine ⟨(tasks.map ledger.passed).sum + later, ?_, ih⟩
      rw [List.map_cons, List.sum_cons, add_assoc]

end Program

/-- The routines of a code account for what they are given. -/
def Code.Balanced (code : Code Shared Mutex Task Context Routine)
    (ledger : Ledger Shared Task Routine M) : Prop :=
  ∀ routine, (code.body routine).Carries ledger (ledger.given routine)

def Frame.Carries (ledger : Ledger Shared Task Routine M) (carried : M) :
    Frame Shared Mutex Task Context Routine → Prop
  | .running _ | .handling _ => carried = 0
  | .executing _ rest => rest.Carries ledger carried

/-- What the calls of a stack carry together. -/
def StackCarries (ledger : Ledger Shared Task Routine M) :
    List (Frame Shared Mutex Task Context Routine) → M → Prop
  | [], carried => carried = 0
  | frame :: below, carried =>
      ∃ own others, frame.Carries ledger own ∧ StackCarries ledger below others ∧
        carried = own + others

namespace StackCarries

variable {ledger : Ledger Shared Task Routine M} {carried own : M}
  {frame : Frame Shared Mutex Task Context Routine}
  {frames : List (Frame Shared Mutex Task Context Routine)}

theorem push (carries : StackCarries ledger frames carried) (entered : frame.Carries ledger own) :
    StackCarries ledger (frame :: frames) (own + carried) :=
  ⟨own, carried, entered, carries, rfl⟩

theorem pop_client (carries : StackCarries ledger (frame :: frames) carried)
    (client : frame.isClient = true) : StackCarries ledger frames carried := by
  rcases carries with ⟨own, others, held, below, rfl⟩
  have nothing : own = 0 := by
    cases frame with
    | running context => exact held
    | handling task => exact held
    | executing routine rest => contradiction
  rwa [nothing, zero_add]

theorem eq_zero (carries : StackCarries ledger frames carried)
    (clients : ∀ frame ∈ frames, frame.isClient = true) : carried = 0 := by
  induction frames generalizing carried with
  | nil => exact carries
  | cons frame frames ih =>
      rw [List.forall_mem_cons] at clients
      exact ih (carries.pop_client clients.1) clients.2

end StackCarries

/-- What clients did: the routines they called, and the tasks which began to run. -/
structure Journal (Task Routine : Type) where
  called : List Routine
  begun : List Task

namespace Journal

variable {Task Routine : Type}

def empty : Journal Task Routine := ⟨[], []⟩

/-- A task begins when it is handled, and when it is dispatched inside of the call. -/
def record (s : State Shared Mutex Task Context Routine) (journal : Journal Task Routine) :
    Event Context Routine → Journal Task Routine
  | .call _ routine => { journal with called := journal.called ++ [routine] }
  | .proceed thread inside =>
      if inside then
        { journal with begun := journal.begun ++ ((s.dispatching thread).map Prod.snd).toList }
      else journal
  | .handle _ index => { journal with begun := journal.begun ++ s.submitted[index]?.toList }
  | .enter .. | .leave _ | .finish _ => journal

theorem record_proceed {s : State Shared Mutex Task Context Routine} {thread : ThreadId}
    {inside : Bool} (journal : Journal Task Routine)
    (notDispatching : s.dispatching thread = none) :
    journal.record s (.proceed thread inside) = journal := by
  simp [record, notDispatching]

end Journal

namespace Ledger

/-- What the tasks have which are submitted or have begun. -/
def tasks (ledger : Ledger Shared Task Routine M) (s : State Shared Mutex Task Context Routine)
    (journal : Journal Task Routine) : M :=
  (s.submitted.map ledger.passed).sum + (journal.begun.map ledger.passed).sum

variable {ledger : Ledger Shared Task Routine M} {s after : State Shared Mutex Task Context Routine}
  {journal later : Journal Task Routine}

theorem tasks_submit {task : Task} (submitted : after.submitted = s.submitted ++ [task]) :
    ledger.tasks after journal = ledger.passed task + ledger.tasks s journal := by
  simp only [tasks, submitted, List.map_append, List.sum_append, List.map_singleton,
    List.sum_singleton]
  abel

theorem tasks_begin {task : Task} (submitted : after.submitted = s.submitted)
    (begun : later.begun = journal.begun ++ [task]) :
    ledger.tasks after later = ledger.passed task + ledger.tasks s journal := by
  simp only [tasks, submitted, begun, List.map_append, List.sum_append, List.map_singleton,
    List.sum_singleton]
  abel

theorem tasks_handle {task : Task} {index : ℕ} (found : s.submitted[index]? = some task)
    (submitted : after.submitted = s.submitted.eraseIdx index)
    (begun : later.begun = journal.begun ++ [task]) :
    ledger.tasks after later = ledger.tasks s journal := by
  rcases List.getElem?_eq_some_iff.mp found with ⟨inRange, rfl⟩
  have others := ((List.getElem_cons_eraseIdx_perm inRange).map ledger.passed).sum_eq
  rw [List.map_cons, List.sum_cons] at others
  simp only [tasks, submitted, begun, List.map_append, List.sum_append, List.map_singleton,
    List.sum_singleton, ← others]
  abel

end Ledger

/-- All that was there at first and that calls were given is still accounted for. -/
def Balances (ledger : Ledger Shared Task Routine M)
    (s : State Shared Mutex Task Context Routine) (journal : Journal Task Routine) (total : M) :
    Prop :=
  ∃ hands : ThreadId →₀ M, (∀ thread, StackCarries ledger (s.stack thread) (hands thread)) ∧
    ledger.stored s.shared + hands.degree + ledger.tasks s journal =
      total + (journal.called.map ledger.given).sum

namespace Balances

variable {ledger : Ledger Shared Task Routine M} {code : Code Shared Mutex Task Context Routine}
  {s after : State Shared Mutex Task Context Routine} {journal later : Journal Task Routine}
  {total : M} {thread : ThreadId}

/-- One thread moves, and accounts for what it carried and is given. -/
theorem move (balances : Balances ledger s journal total)
    {frames : List (Frame Shared Mutex Task Context Routine)}
    (moved : after.stack = Function.update s.stack thread frames) (gift : M)
    (called : (later.called.map ledger.given).sum = (journal.called.map ledger.given).sum + gift)
    (exchange : ∀ own, StackCarries ledger (s.stack thread) own →
      ∃ kept, StackCarries ledger frames kept ∧
        ledger.stored after.shared + kept + ledger.tasks after later =
          ledger.stored s.shared + own + ledger.tasks s journal + gift) :
    Balances ledger after later total := by
  rcases balances with ⟨hands, carries, accounts⟩
  rcases exchange (hands thread) (carries thread) with ⟨kept, carriesLater, exchanged⟩
  refine ⟨hands.erase thread + Finsupp.single thread kept, ?_, ?_⟩
  · intro other
    rw [moved]
    by_cases same : other = thread
    · subst same
      simpa using carriesLater
    · simpa [same, Finsupp.single_apply, Ne.symm same] using carries other
  · have split : hands.degree = (hands.erase thread).degree + hands thread := by
      conv_lhs => rw [← Finsupp.erase_add_single thread hands]
      rw [map_add, Finsupp.degree_single]
    rw [map_add, Finsupp.degree_single, called, ← add_assoc total, ← accounts, split]
    calc ledger.stored after.shared + ((hands.erase thread).degree + kept) +
            ledger.tasks after later
      _ = (hands.erase thread).degree +
            (ledger.stored after.shared + kept + ledger.tasks after later) := by abel
      _ = (hands.erase thread).degree +
            (ledger.stored s.shared + hands thread + ledger.tasks s journal + gift) := by
          rw [exchanged]
      _ = _ := by abel

/-- A thread moves without a call. -/
theorem moveOn (balances : Balances ledger s journal total)
    {frames : List (Frame Shared Mutex Task Context Routine)}
    (moved : after.stack = Function.update s.stack thread frames)
    (called : later.called = journal.called)
    (exchange : ∀ own, StackCarries ledger (s.stack thread) own →
      ∃ kept, StackCarries ledger frames kept ∧
        ledger.stored after.shared + kept + ledger.tasks after later =
          ledger.stored s.shared + own + ledger.tasks s journal) :
    Balances ledger after later total := by
  apply balances.move moved 0
  · rw [called, add_zero]
  · intro own carries
    rw [add_zero]
    exact exchange own carries

variable [DecidableEq Mutex] [DecidableEq Context]

theorem proceed (balances : Balances ledger s journal total) (balanced : code.Balanced ledger)
    {inside : Bool} {routine : Routine} {program : Program Shared Mutex Task Routine}
    {below : List (Frame Shared Mutex Task Context Routine)}
    (atProgram : s.stack thread = .executing routine program :: below)
    (proceeded : s.proceed code thread inside routine below program = some after) :
    Balances ledger after (journal.record s (.proceed thread inside)) total := by
  have unbegun : s.dispatching thread = none →
      journal.record s (.proceed thread inside) = journal := Journal.record_proceed journal
  -- Steps at which a call keeps what it carries.
  have keeps : ∀ {frame : Frame Shared Mutex Task Context Routine},
      s.dispatching thread = none → after.shared = s.shared → after.submitted = s.submitted →
      after.stack = Function.update s.stack thread (frame :: below) →
      (∀ own, program.Carries ledger own → frame.Carries ledger own) →
      Balances ledger after (journal.record s (.proceed thread inside)) total := by
    intro frame notDispatching shared submitted moved carriesOn
    rw [unbegun notDispatching]
    refine balances.moveOn moved rfl ?_
    rw [atProgram]
    rintro _ ⟨own, others, carries, deeper, rfl⟩
    refine ⟨own + others, deeper.push (carriesOn own carries), ?_⟩
    rw [shared, Ledger.tasks, submitted]
    rfl
  cases program with
  | lock mutex next =>
      simp only [State.proceed] at proceeded
      split at proceeded
      · contradiction
      · rcases Option.some.inj proceeded with rfl
        exact keeps (by simp [State.dispatching, atProgram]) rfl rfl rfl fun _ carries => carries
  | unlock mutex next =>
      simp only [State.proceed, Option.ite_none_right_eq_some, Option.some.injEq] at proceeded
      rcases proceeded with ⟨_, rfl⟩
      exact keeps (by simp [State.dispatching, atProgram]) rfl rfl rfl fun _ carries => carries
  | access effect next =>
      simp only [State.proceed, Option.map_eq_some_iff] at proceeded
      rcases proceeded with ⟨shared, accessed, rfl⟩
      rw [unbegun (by simp [State.dispatching, atProgram])]
      refine balances.moveOn rfl rfl ?_
      rw [atProgram]
      rintro _ ⟨own, others, carries, deeper, rfl⟩
      rcases carries s.shared shared accessed with ⟨kept, exchanged, carriesOn⟩
      refine ⟨kept + others, deeper.push carriesOn, ?_⟩
      change ledger.stored shared + (kept + others) + ledger.tasks s journal = _
      rw [← add_assoc, exchanged, ← add_assoc]
  | post task next =>
      rcases Option.some.inj proceeded with rfl
      rw [unbegun (by simp [State.dispatching, atProgram])]
      refine balances.moveOn rfl rfl ?_
      rw [atProgram]
      rintro _ ⟨_, others, ⟨kept, rfl, carriesOn⟩, deeper, rfl⟩
      refine ⟨kept + others, deeper.push carriesOn, ?_⟩
      rw [Ledger.tasks_submit (s := s) rfl]
      change ledger.stored s.shared + _ + _ = _
      abel
  | dispatch task next =>
      have dispatching : s.dispatching thread = some (routine, task) :=
        State.dispatching_eq_some.mpr ⟨next, below, atProgram⟩
      cases inside with
      | true =>
          simp only [State.proceed, if_true, Option.ite_none_right_eq_some,
            Option.some.injEq] at proceeded
          rcases proceeded with ⟨_, rfl⟩
          refine balances.moveOn rfl rfl ?_
          rw [atProgram]
          rintro _ ⟨_, others, ⟨kept, rfl, carriesOn⟩, deeper, rfl⟩
          have entered : StackCarries ledger
              (.handling task :: .executing routine next :: below) (0 + (kept + others)) :=
            .push ⟨kept, others, carriesOn, deeper, rfl⟩ rfl
          have tasks : ledger.tasks
              (s.setStack thread (.handling task :: .executing routine next :: below))
              (journal.record s (.proceed thread true)) =
                ledger.passed task + ledger.tasks s journal := by
            apply Ledger.tasks_begin rfl
            simp [Journal.record, dispatching]
          refine ⟨_, entered, ?_⟩
          rw [tasks]
          change ledger.stored s.shared + _ + _ = _
          abel
      | false =>
          rcases Option.some.inj proceeded with rfl
          refine balances.moveOn rfl rfl ?_
          rw [atProgram]
          rintro _ ⟨_, others, ⟨kept, rfl, carriesOn⟩, deeper, rfl⟩
          refine ⟨kept + others, deeper.push carriesOn, ?_⟩
          change ledger.stored s.shared + _ + ledger.tasks _ journal = _
          rw [Ledger.tasks_submit (s := s) rfl]
          abel
  | jump other =>
      rcases Option.some.inj proceeded with rfl
      refine keeps (by simp [State.dispatching, atProgram]) rfl rfl rfl ?_
      intro own carries
      exact carries ▸ balanced other
  | done =>
      rcases Option.some.inj proceeded with rfl
      rw [unbegun (by simp [State.dispatching, atProgram])]
      refine balances.moveOn rfl rfl ?_
      rw [atProgram]
      rintro _ ⟨_, others, rfl, deeper, rfl⟩
      exact ⟨others, deeper, by rw [zero_add]; rfl⟩

theorem step (balances : Balances ledger s journal total) (balanced : code.Balanced ledger)
    {event : Event Context Routine} (stepped : s.step code event = some after) :
    Balances ledger after (journal.record s event) total := by
  cases event with
  | call thread routine =>
      simp only [State.step, Option.ite_none_right_eq_some, Option.some.injEq] at stepped
      rcases stepped with ⟨_, rfl⟩
      refine balances.move rfl (ledger.given routine) (by simp [Journal.record]) ?_
      intro own carries
      refine ⟨ledger.given routine + own, carries.push (balanced routine), ?_⟩
      change ledger.stored s.shared + _ + ledger.tasks s journal = _
      abel
  | proceed thread inside =>
      simp only [State.step] at stepped
      split at stepped
      · next atProgram => exact balances.proceed balanced atProgram stepped
      · contradiction
  | enter thread context =>
      simp only [State.step, Option.ite_none_right_eq_some, Option.some.injEq] at stepped
      rcases stepped with ⟨_, rfl⟩
      refine balances.moveOn rfl rfl ?_
      intro own carries
      exact ⟨0 + own, carries.push rfl, by rw [zero_add]; rfl⟩
  | leave thread =>
      simp only [State.step] at stepped
      split at stepped
      · next atFrame =>
          rcases Option.some.inj stepped with rfl
          refine balances.moveOn rfl rfl ?_
          rw [atFrame]
          exact fun own carries => ⟨own, carries.pop_client rfl, rfl⟩
      · contradiction
  | handle thread index =>
      simp only [State.step] at stepped
      split at stepped
      · next context below task atFrame found =>
          simp only [Option.ite_none_right_eq_some, Option.some.injEq] at stepped
          rcases stepped with ⟨_, rfl⟩
          refine balances.moveOn rfl rfl ?_
          intro own carries
          rw [← atFrame]
          have begun : (journal.record s (.handle thread index)).begun =
              journal.begun ++ [task] := by
            simp [Journal.record, found]
          refine ⟨0 + own, carries.push rfl, ?_⟩
          rw [Ledger.tasks_handle (s := s) found rfl begun, zero_add]
          rfl
      · contradiction
  | finish thread =>
      simp only [State.step] at stepped
      split at stepped
      · next atFrame =>
          rcases Option.some.inj stepped with rfl
          refine balances.moveOn rfl rfl ?_
          rw [atFrame]
          exact fun own carries => ⟨own, carries.pop_client rfl, rfl⟩
      · contradiction

end Balances

namespace State

variable [DecidableEq Mutex] [DecidableEq Context]

/-- The threads together with their journal. -/
def journaled (code : Code Shared Mutex Task Context Routine) :
    System (State Shared Mutex Task Context Routine × Journal Task Routine)
      (Event Context Routine) :=
  (State.system code).withHistory (fun _ journal => journal = .empty)
    fun s journal event => journal.record s event

/-- Whatever the threads do, nothing is lost or made. -/
theorem balances_of_leadsTo {ledger : Ledger Shared Task Routine M}
    {code : Code Shared Mutex Task Context Routine} (balanced : code.Balanced ledger)
    {shared : Shared} {s : State Shared Mutex Task Context Routine} {journal : Journal Task Routine}
    {condition : State Shared Mutex Task Context Routine × Journal Task Routine →
      Event Context Routine → Prop}
    (leads : (journaled code).LeadsTo condition (initially shared, .empty) (s, journal)) :
    Balances ledger s journal (ledger.stored shared) := by
  suffices ∀ pair, (journaled code).LeadsTo condition (initially shared, .empty) pair →
      Balances ledger pair.1 pair.2 (ledger.stored shared) from this _ leads
  intro pair leads
  induction leads with
  | refl => exact ⟨0, fun _ => rfl, by simp [initially, Ledger.tasks, Journal.empty]⟩
  | @tail before after _ stepped ih =>
      rcases stepped with ⟨event, _, stepped⟩
      rcases System.withHistory_step_eq_some.mp stepped with ⟨moved, recorded⟩
      rw [recorded]
      exact ih.step balanced moved

end State

end Concurrency
