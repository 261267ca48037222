import ResourcePool.Handles
import ResourcePool.Storage.History
import ResourcePool.Sync.PoolImpl
import ResourcePool.Transition.System

/-!
# The synchronous pool and its clients

`World` is an implementation together with the calls of `get` which are blocked in its
condition variable and the handles of its clients. `World.step` takes one section under
the mutex, or one operation on a handle.

A wait may report either status at any time, whether it was notified or not.
-/

namespace ResourcePool.Sync

structure GetResult where
  error : Error.Code
  handle : Handle Unit
  deriving DecidableEq

/-- The result which `pool::get_handle` makes of that of the implementation. -/
def getHandle (useStrategy : Strategy) (error : Error.Code) (res : CellIterator) : GetResult :=
  ⟨error, Handle.constructed () useStrategy res⟩

/-- A call of `get` which is blocked in `wait_for`. -/
structure Waiter where
  useStrategy : Strategy
  waitDuration : Duration
  notified : Bool
  deriving DecidableEq

structure World (V : Type) where
  impl : PoolImpl V
  waiters : List Waiter
  /-- What all calls of `get` have returned so far. -/
  returned : List GetResult
  handles : Handles
  undefined : Bool

/-- The atomic steps. A handle which a call of `get` returns is named by the event. -/
inductive Event (V : Type) where
  | get (handle : HandleId) (useStrategy : Strategy) (waitDuration : Duration) (now : TimePoint)
  /-- A blocked call has the mutex again. -/
  | wake (waiter : ℕ) (handle : HandleId) (status : CvStatus) (now : TimePoint)
  | reset (handle : HandleId) (value : V) (now : TimePoint)
  | operate (event : HandleEvent)
  /-- The section of the call which a handle is in, and the waiter which it notifies. -/
  | finish (handle : HandleId) (now : TimePoint) (notified : Option ℕ)
  | invalidate
  | disable

namespace World

variable {V : Type}

def initially (impl : PoolImpl V) : World V where
  impl := impl
  waiters := []
  returned := []
  handles := ∅
  undefined := false

def goWrong (w : World V) : World V := { w with undefined := true }

/-- `notify_one`: a waiter which was not notified yet, if there is one. -/
def notifyOne (waiters : List Waiter) : Option ℕ → Option (List Waiter)
  | none => if waiters.all Waiter.notified then some waiters else none
  | some index =>
      match waiters[index]? with
      | none => none
      | some waiter =>
          if waiter.notified then none
          else some (waiters.set index { waiter with notified := true })

def notifyAll (waiters : List Waiter) : List Waiter :=
  waiters.map fun waiter => { waiter with notified := true }

theorem length_notifyOne {waiters after : List Waiter} {notified : Option ℕ}
    (notifies : notifyOne waiters notified = some after) : after.length = waiters.length := by
  cases notified with
  | none =>
      simp only [notifyOne, Option.ite_none_right_eq_some, Option.some.injEq] at notifies
      rw [notifies.2]
  | some index =>
      simp only [notifyOne] at notifies
      split at notifies
      · contradiction
      · simp only [Option.ite_none_left_eq_some, Option.some.injEq] at notifies
        rw [← notifies.2, List.length_set]

def returnTo (w : World V) (handle : HandleId) (result : GetResult) : World V :=
  { w with
    returned := w.returned ++ [result]
    handles := w.handles.insert handle ⟨result.handle, none⟩ }

/-- A round of `get` ends with a result, or with a wait. How long the wait is asked to last makes
no difference here, as it may report either status at any time. -/
def conclude (w : World V) (handle : HandleId) (useStrategy : Strategy)
    (waitDuration : Duration) : PoolImpl V × GetOutcome → World V
  | (impl, .returned error listIterator) =>
      { w with impl := impl }.returnTo handle (getHandle useStrategy error listIterator)
  | (impl, .waits _) =>
      { w with
        impl := impl
        waiters := w.waiters ++ [⟨useStrategy, waitDuration, false⟩] }

/-- The section of `recycle` or `waste` which a call leads to. -/
def callSection (impl : PoolImpl V) (call : PoolCall Unit) (now : TimePoint) :
    Option (PoolImpl V) :=
  match call with
  | ⟨some (), some strategy, resourceIt⟩ => impl.giveBack strategy resourceIt now
  | _ => none

def act (w : World V) : Event V → Option (World V)
  | .get handle useStrategy waitDuration now =>
      if handle ∈ w.handles then none
      else some (w.conclude handle useStrategy waitDuration (w.impl.attempt waitDuration now))
  | .wake waiter handle status now =>
      if handle ∈ w.handles then none
      else
        match w.waiters[waiter]? with
        | none => none
        | some blocked =>
            some ({ w with waiters := w.waiters.eraseIdx waiter }.conclude handle
              blocked.useStrategy blocked.waitDuration
              (w.impl.resume status blocked.waitDuration now))
  | .reset handle value now =>
      match w.handles.ready? handle with
      | none => none
      | some ready =>
          match w.impl.storage.resetThrough ready value now with
          | none => some w.goWrong
          | some storage => some { w with impl := { w.impl with storage := storage } }
  | .operate event => (w.handles.act event).map fun handles => { w with handles := handles }
  | .finish handle now notified =>
      match w.handles.lookup handle with
      | some ⟨returning, some call⟩ =>
          match callSection w.impl call now with
          | none => some w.goWrong
          | some impl =>
              (notifyOne w.waiters notified).map fun waiters =>
                { w with
                  impl := impl
                  waiters := waiters
                  handles := w.handles.insert handle ⟨returning.returned, none⟩ }
      | _ => none
  | .invalidate => some { w with impl := w.impl.invalidate }
  | .disable => some { w with impl := w.impl.disable, waiters := notifyAll w.waiters }

/-- One atomic step. Nothing is said of what follows undefined behaviour. -/
def step (w : World V) (event : Event V) : Option (World V) :=
  if w.undefined then none else w.act event

/-- The implementation was made by one of the constructors, without an exception. -/
inductive Constructed : PoolImpl V → Prop where
  | constructed {capacity : ℕ} {idleTimeout lifespan : Duration} {impl : PoolImpl V}
      (succeeded : PoolImpl.constructed capacity idleTimeout lifespan = .ok impl) :
      Constructed impl
  | generated {capacity : ℕ} {genValue : Fin capacity → V} {idleTimeout lifespan : Duration}
      {now : TimePoint} {impl : PoolImpl V}
      (succeeded : PoolImpl.generated capacity genValue idleTimeout lifespan now = .ok impl) :
      Constructed impl

theorem Constructed.spec {impl : PoolImpl V} (isConstructed : Constructed impl) :
    0 < impl.capacity ∧ (∃ now, impl.storage.Constructed now) ∧
      impl.storage.cells = List.range impl.capacity ∧ impl.storage.used = [] ∧
      impl.disabled = false := by
  cases isConstructed with
  | constructed succeeded =>
      simp only [PoolImpl.constructed, assertCapacity] at succeeded
      split at succeeded
      · contradiction
      · next positive =>
          rcases Except.ok.inj succeeded with rfl
          exact ⟨Nat.pos_of_ne_zero positive, ⟨Ticks.zero, .empty ..⟩,
            by simp [Storage.empty, Lists.cells], rfl, rfl⟩
  | @generated _ _ _ _ now _ succeeded =>
      simp only [PoolImpl.generated, assertCapacity] at succeeded
      split at succeeded
      · contradiction
      · next positive =>
          rcases Except.ok.inj succeeded with rfl
          exact ⟨Nat.pos_of_ne_zero positive, ⟨now, .generated ..⟩,
            by simp [Storage.generated, Lists.cells], rfl, rfl⟩

def system (V : Type) : Transition.System (World V) (Event V) where
  Initial w := ∃ impl, Constructed impl ∧ w = initially impl
  step := step

def oneCell : World ℕ := initially ⟨Storage.empty 1 Ticks.max Ticks.max, 1, false⟩

theorem oneCell_initial : (system ℕ).Initial oneCell :=
  ⟨_, .constructed (show PoolImpl.constructed 1 Ticks.max Ticks.max = .ok _ from rfl), rfl⟩

/-- The rounds of `get` which look at the storage: the first one of a call, and those
after a wait which did not time out. -/
inductive Looks (w : World V) : Event V → HandleId → Strategy → Duration → TimePoint →
    List Waiter → Prop where
  | get {handle : HandleId} {useStrategy : Strategy} {waitDuration : Duration}
      {now : TimePoint} :
      Looks w (.get handle useStrategy waitDuration now) handle useStrategy waitDuration now
        w.waiters
  | wake {index : ℕ} {handle : HandleId} {now : TimePoint} {waiter : Waiter}
      (isWaiter : w.waiters[index]? = some waiter) :
      Looks w (.wake index handle .noTimeout now) handle waiter.useStrategy waiter.waitDuration
        now (w.waiters.eraseIdx index)

/-- What an event does to the world, by its kinds of effect. -/
inductive Stepped (w : World V) : Event V → World V → Prop where
  | leased {event : Event V} {handle : HandleId} {useStrategy : Strategy}
      {waitDuration : Duration} {now : TimePoint} {waiters : List Waiter} {cell : CellId}
      (looks : w.Looks event handle useStrategy waitDuration now waiters)
      (isNew : handle ∉ w.handles) (active : w.impl.disabled = false)
      (isLeased : (w.impl.storage.lease now).1 = some cell) :
      Stepped w event
        ({ w with
          impl := { w.impl with storage := (w.impl.storage.lease now).2 }
          waiters := waiters }.returnTo handle (getHandle useStrategy .ok (.node cell)))
  | refused {event : Event V} {handle : HandleId} {useStrategy : Strategy}
      {waitDuration : Duration} {now : TimePoint} {waiters : List Waiter}
      (looks : w.Looks event handle useStrategy waitDuration now waiters)
      (isNew : handle ∉ w.handles) (disabled : w.impl.disabled = true) :
      Stepped w event
        ({ w with waiters := waiters }.returnTo handle
          (getHandle useStrategy .disabled .singular))
  | blocked {event : Event V} {handle : HandleId} {useStrategy : Strategy}
      {waitDuration : Duration} {now : TimePoint} {waiters : List Waiter}
      (looks : w.Looks event handle useStrategy waitDuration now waiters)
      (active : w.impl.disabled = false) (full : w.impl.storage.NoFreeCell) :
      Stepped w event { w with waiters := waiters ++ [⟨useStrategy, waitDuration, false⟩] }
  | timedOut {index : ℕ} {handle : HandleId} {now : TimePoint} {waiter : Waiter}
      (isWaiter : w.waiters[index]? = some waiter) (isNew : handle ∉ w.handles) :
      Stepped w (.wake index handle .timeout now)
        ({ w with waiters := w.waiters.eraseIdx index }.returnTo handle
          (getHandle waiter.useStrategy .getResourceTimeout .singular))
  | stored {handle : HandleId} {value : V} {now : TimePoint} {ready : Handle Unit}
      {cell : CellId} (isReady : w.handles.lookup handle = some ⟨ready, none⟩)
      (holds : ready.resourceIt = some (.node cell)) (used : cell ∈ w.impl.storage.used) :
      Stepped w (.reset handle value now)
        { w with impl := { w.impl with storage := w.impl.storage.store cell value now } }
  | storedOutside {handle : HandleId} {value : V} {now : TimePoint} {ready : Handle Unit}
      {resourceIt : CellIterator} (isReady : w.handles.lookup handle = some ⟨ready, none⟩)
      (holds : ready.resourceIt = some resourceIt)
      (outside : ∀ cell, resourceIt = .node cell → cell ∉ w.impl.storage.used) :
      Stepped w (.reset handle value now) w.goWrong
  | threw {handle : HandleId} {value : V} {now : TimePoint} {ready : Handle Unit}
      (isReady : w.handles.lookup handle = some ⟨ready, none⟩)
      (unusable : ready.resourceIt = none) : Stepped w (.reset handle value now) w
  | operated {event : HandleEvent} {handles : Handles} (acted : w.handles.Acted event handles) :
      Stepped w (.operate event) { w with handles := handles }
  | tookBack {handle : HandleId} {now : TimePoint} {notified : Option ℕ}
      {returning : Handle Unit} {strategy : Strategy} {cell : CellId} {waiters : List Waiter}
      (inCall : w.handles.lookup handle =
        some ⟨returning, some ⟨some (), some strategy, .node cell⟩⟩)
      (used : cell ∈ w.impl.storage.used) (notifies : notifyOne w.waiters notified = some waiters) :
      Stepped w (.finish handle now notified)
        { w with
          impl := { w.impl with storage := w.impl.storage.takeBack strategy cell used now }
          waiters := waiters
          handles := w.handles.insert handle ⟨returning.returned, none⟩ }
  | finishedOutside {handle : HandleId} {now : TimePoint} {notified : Option ℕ}
      {returning : Handle Unit} {call : PoolCall Unit}
      (inCall : w.handles.lookup handle = some ⟨returning, some call⟩)
      (outside : ∀ strategy cell, call = ⟨some (), some strategy, .node cell⟩ →
        cell ∉ w.impl.storage.used) : Stepped w (.finish handle now notified) w.goWrong
  | invalidated :
      Stepped w .invalidate
        { w with impl := { w.impl with storage := w.impl.storage.invalidate } }
  | disabled :
      Stepped w .disable
        { w with
          impl := { w.impl with disabled := true }
          waiters := notifyAll w.waiters }

theorem stepped_of_attempt {w : World V} {event : Event V} {handle : HandleId}
    {useStrategy : Strategy} {waitDuration : Duration} {now : TimePoint}
    {waiters : List Waiter}
    (looks : w.Looks event handle useStrategy waitDuration now waiters)
    (isNew : handle ∉ w.handles) :
    w.Stepped event
      ({ w with waiters := waiters }.conclude handle useStrategy waitDuration
        (w.impl.attempt waitDuration now)) := by
  rcases w.impl.attempt_cases waitDuration now with
    ⟨disabled, result⟩ | ⟨active, cell, isLeased, result⟩ | ⟨active, full, result⟩ <;>
  rw [result]
  · exact .refused looks isNew disabled
  · exact .leased looks isNew active isLeased
  · exact .blocked looks active full

theorem stepped_of_act {w after : World V} {event : Event V}
    (acted : w.act event = some after) : w.Stepped event after := by
  cases event with
  | get handle useStrategy waitDuration now =>
      simp only [act, Option.ite_none_left_eq_some, Option.some.injEq] at acted
      rcases acted with ⟨isNew, rfl⟩
      exact stepped_of_attempt .get isNew
  | wake index handle status now =>
      simp only [act, Option.ite_none_left_eq_some] at acted
      rcases acted with ⟨isNew, acted⟩
      split at acted
      · contradiction
      · next waiter isWaiter =>
          simp only [Option.some.injEq] at acted
          subst acted
          cases status with
          | noTimeout => exact stepped_of_attempt (.wake isWaiter) isNew
          | timeout => exact .timedOut isWaiter isNew
  | reset handle value now =>
      simp only [act] at acted
      split at acted
      · contradiction
      · next ready isReady =>
          rw [Handles.ready?_eq_some] at isReady
          rcases w.impl.storage.resetThrough_cases ready value now with
            ⟨holds, result⟩ | ⟨cell, holds, used, result⟩ | ⟨resourceIt, holds, outside, result⟩ <;>
          simp only [result, Option.some.injEq] at acted <;>
          subst acted
          · exact .threw isReady holds
          · exact .stored isReady holds used
          · exact .storedOutside isReady holds outside
  | operate event =>
      simp only [act, Option.map_eq_some_iff] at acted
      rcases acted with ⟨handles, isActed, rfl⟩
      exact .operated (Handles.acted_of_act isActed)
  | finish handle now notified =>
      simp only [act] at acted
      split at acted
      · next returning call inCall =>
          split at acted
          · next undefined =>
              simp only [Option.some.injEq] at acted
              subst acted
              refine .finishedOutside inCall ?_
              rintro strategy cell rfl used
              simp [callSection, PoolImpl.giveBack_used _ _ used] at undefined
          · next impl result =>
              simp only [Option.map_eq_some_iff] at acted
              rcases acted with ⟨waiters, notifies, rfl⟩
              simp only [callSection] at result
              split at result
              · next strategy resourceIt =>
                  rcases PoolImpl.used_of_giveBack result with ⟨cell, rfl, used⟩
                  rw [PoolImpl.giveBack_used _ _ used, Option.some.injEq] at result
                  subst result
                  exact .tookBack inCall used notifies
              · contradiction
      · contradiction
  | invalidate =>
      simp only [act, Option.some.injEq] at acted
      subst acted
      exact .invalidated
  | disable =>
      simp only [act, Option.some.injEq] at acted
      subst acted
      exact .disabled

/-- The effect of a step, which is taken only while the behaviour is defined. -/
theorem stepped_of_step {w after : World V} {event : Event V}
    (stepped : w.step event = some after) : w.undefined = false ∧ w.Stepped event after := by
  simp only [step] at stepped
  split at stepped
  · contradiction
  · next isDefined => exact ⟨by simpa using isDefined, stepped_of_act stepped⟩

end World

end ResourcePool.Sync
