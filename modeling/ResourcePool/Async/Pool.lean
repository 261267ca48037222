import ResourcePool.Async.PoolImpl
import ResourcePool.Handles
import ResourcePool.Transition.System

/-!
# The asynchronous pool and its clients

`World` is an implementation together with all that its clients and the `io_context`s
hold of it: calls of `get` between their two sections, submitted completions, and the
handles. `World.step` takes one atomic step of any of them.

A dispatched completion may run inside of the call which submits it. It then is the next
to run, which is one of the orders in which `run` takes the submitted completions.
-/

namespace ResourcePool.Async

/-- The handler given to `async::pool`, by the number of its request, with the strategy
which `on_get_handler` gives to its handle. -/
structure Request where
  id : ℕ
  useStrategy : Strategy
  deriving DecidableEq

/-- `pool::on_get_handler`: the handle with which the handler is called. -/
def onGetHandler (request : Request) (ec : Error.Code) (res : CellIterator) : Handle Unit :=
  if ec.isSet then Handle.unattached else Handle.constructed () request.useStrategy res

/-- An implementation, its clients, and the completions submitted to `io_context`s. -/
structure World (V IoContext : Type) where
  impl : PoolImpl V Request IoContext
  /-- The calls of `get` between their two sections. -/
  unlocked : List (UnlockedGet Request IoContext)
  submitted : List (Submission Request IoContext)
  completed : List (Submission Request IoContext)
  /-- All completions ever submitted. -/
  log : List (Submission Request IoContext)
  /-- The `io_context`s of all requests ever issued, by the number of the request. -/
  issued : List IoContext
  handles : Handles
  undefined : Bool

inductive Event (V IoContext : Type) where
  | get (ioContext : IoContext) (useStrategy : Strategy) (waitDuration : Duration)
      (now : TimePoint)
  /-- The push of an unlocked `get`. -/
  | push (get : ℕ) (now : TimePoint)
  /-- A submitted completion runs and passes a handle to the client. -/
  | run (submission : ℕ) (handle : HandleId)
  | reset (handle : HandleId) (value : V) (now : TimePoint)
  | operate (event : HandleEvent)
  /-- The section of the call which a handle is in. -/
  | finish (handle : HandleId) (now : TimePoint)
  | invalidate
  | disable
  | fire (ioContext : IoContext) (wait : ℕ)
  | deliver (completion : ℕ)

namespace World

variable {V IoContext : Type} [DecidableEq IoContext]

def initially (impl : PoolImpl V Request IoContext) : World V IoContext where
  impl := impl
  unlocked := []
  submitted := []
  completed := []
  log := []
  issued := []
  handles := ∅
  undefined := false

def submit (w : World V IoContext) (submissions : List (Submission Request IoContext)) :
    World V IoContext :=
  { w with submitted := w.submitted ++ submissions, log := w.log ++ submissions }

def goWrong (w : World V IoContext) : World V IoContext := { w with undefined := true }

def setHandle (w : World V IoContext) (handle : HandleId) (state : HandleState) :
    World V IoContext :=
  { w with handles := w.handles.insert handle state }

/-- The section of `recycle` or `waste` which a call leads to. -/
def callSection (impl : PoolImpl V Request IoContext) (call : PoolCall Unit) (now : TimePoint) :
    Option (PoolImpl V Request IoContext × Option (Submission Request IoContext)) :=
  match call with
  | ⟨some (), some strategy, resourceIt⟩ => impl.giveBack strategy resourceIt now
  | _ => none

def act (w : World V IoContext) : Event V IoContext → Option (World V IoContext)
  | .get ioContext useStrategy waitDuration now =>
      let issued := { w with issued := w.issued ++ [ioContext] }
      match w.impl.get ioContext ⟨w.issued.length, useStrategy⟩ waitDuration now with
      | (impl, .submitted submission) => some ({ issued with impl := impl }.submit [submission])
      | (impl, .unlocked get) =>
          some { issued with impl := impl, unlocked := w.unlocked ++ [get] }
  | .push get now =>
      match w.unlocked[get]? with
      | none => none
      | some unlocked =>
          let (impl, submission) := w.impl.push unlocked now
          some ({ w with impl := impl, unlocked := w.unlocked.eraseIdx get }.submit
            submission.toList)
  | .run submission handle =>
      if handle ∈ w.handles then none
      else
        match w.submitted[submission]? with
        | none => none
        | some submitted =>
            match submitted.task.handler with
            | none => some w.goWrong
            | some request =>
                some ({ w with
                  submitted := w.submitted.eraseIdx submission
                  completed := w.completed ++ [submitted] }.setHandle handle
                    ⟨onGetHandler request submitted.task.error submitted.task.listIterator,
                      none⟩)
  | .reset handle value now =>
      match w.handles.ready? handle with
      | none => none
      | some ready =>
          match w.impl.storage.resetThrough ready value now with
          | none => some w.goWrong
          | some storage => some { w with impl := { w.impl with storage := storage } }
  | .operate event => (w.handles.act event).map fun handles => { w with handles := handles }
  | .finish handle now =>
      match w.handles.lookup handle with
      | some ⟨returning, some call⟩ =>
          match callSection w.impl call now with
          | none => some w.goWrong
          | some (impl, submission) =>
              some (({ w with impl := impl }.submit submission.toList).setHandle handle
                ⟨returning.returned, none⟩)
      | _ => none
  | .invalidate => some { w with impl := w.impl.invalidate }
  | .disable =>
      let (impl, submissions) := w.impl.disable
      some ({ w with impl := impl }.submit submissions)
  | .fire ioContext wait =>
      (w.impl.fire ioContext wait).map fun impl => { w with impl := impl }
  | .deliver completion =>
      (w.impl.deliver completion).map fun (impl, submissions) =>
        { w with impl := impl }.submit submissions

/-- One atomic step. Nothing is said of what follows undefined behaviour. -/
def step (w : World V IoContext) (event : Event V IoContext) : Option (World V IoContext) :=
  if w.undefined then none else w.act event

/-- The implementation was made by one of the constructors, without an exception. -/
inductive Constructed : PoolImpl V Request IoContext → Prop where
  | constructed {capacity queueCapacity : ℕ} {idleTimeout lifespan : Duration}
      {impl : PoolImpl V Request IoContext}
      (succeeded : PoolImpl.constructed capacity queueCapacity idleTimeout lifespan = .ok impl) :
      Constructed impl
  | generated {capacity queueCapacity : ℕ} {genValue : Fin capacity → V}
      {idleTimeout lifespan : Duration} {now : TimePoint} {impl : PoolImpl V Request IoContext}
      (succeeded : PoolImpl.generated capacity genValue queueCapacity idleTimeout lifespan now =
        .ok impl) : Constructed impl
  | ofRange {values : List V} {queueCapacity : ℕ} {idleTimeout lifespan : Duration}
      {now : TimePoint} {impl : PoolImpl V Request IoContext}
      (succeeded : PoolImpl.ofRange values queueCapacity idleTimeout lifespan now = .ok impl) :
      Constructed impl

omit [DecidableEq IoContext] in
theorem Constructed.spec {impl : PoolImpl V Request IoContext} (isConstructed : Constructed impl) :
    0 < impl.capacity ∧ (∃ now, impl.storage.Constructed now) ∧
      impl.storage.cells = List.range impl.capacity ∧ impl.storage.used = [] ∧
      impl.callbacks.contents = [] ∧ impl.disabled = false := by
  have ofGenerator : ∀ {capacity queueCapacity : ℕ} {genValue : Fin capacity → V}
      {idleTimeout lifespan : Duration} {now : TimePoint},
      PoolImpl.generated capacity genValue queueCapacity idleTimeout lifespan now = .ok impl →
        0 < impl.capacity ∧ (∃ now, impl.storage.Constructed now) ∧
          impl.storage.cells = List.range impl.capacity ∧ impl.storage.used = [] ∧
          impl.callbacks.contents = [] ∧ impl.disabled = false := by
    intro capacity queueCapacity genValue idleTimeout lifespan now succeeded
    simp only [PoolImpl.generated, assertCapacity] at succeeded
    split at succeeded
    · contradiction
    · next positive =>
        rcases Except.ok.inj succeeded with rfl
        exact ⟨Nat.pos_of_ne_zero positive, ⟨now, .generated ..⟩,
          by simp [Storage.generated, Lists.cells], rfl, rfl, rfl⟩
  cases isConstructed with
  | constructed succeeded =>
      simp only [PoolImpl.constructed, assertCapacity] at succeeded
      split at succeeded
      · contradiction
      · next positive =>
          rcases Except.ok.inj succeeded with rfl
          exact ⟨Nat.pos_of_ne_zero positive, ⟨Ticks.zero, .empty ..⟩,
            by simp [Storage.empty, Lists.cells], rfl, rfl, rfl⟩
  | generated succeeded => exact ofGenerator succeeded
  | ofRange succeeded => exact ofGenerator succeeded

def system (V IoContext : Type) [DecidableEq IoContext] :
    Transition.System (World V IoContext) (Event V IoContext) where
  Initial w := ∃ impl, Constructed impl ∧ w = initially impl
  step := step

/-- A pool of one cell without a value, with room for one queued request. -/
def oneCell : World ℕ Bool :=
  initially ⟨Storage.empty 1 Ticks.max Ticks.max, 1, CoherentQueue.constructed 1, false⟩

theorem oneCell_initial : (system ℕ Bool).Initial oneCell :=
  ⟨_, .constructed (show PoolImpl.constructed 1 1 Ticks.max Ticks.max = .ok _ from rfl), rfl⟩

/-- One client holds the cell while another one's request is queued, and then recycles it. -/
def handOverRun : List (Event ℕ Bool) :=
  [.get false .recycle Ticks.zero (Ticks.clamp 10),
    .get true .waste (Ticks.clamp 5) (Ticks.clamp 11), .push 0 (Ticks.clamp 11), .run 0 0,
    .operate (.giveBack 0 .recycle), .finish 0 (Ticks.clamp 12)]

/-- What an event does to the world, by its kinds of effect. -/
inductive Stepped (w : World V IoContext) : Event V IoContext → World V IoContext → Prop where
  | leased {ioContext : IoContext} {useStrategy : Strategy} {waitDuration : Duration}
      {now : TimePoint} {cell : CellId} (active : w.impl.disabled = false)
      (isLeased : (w.impl.storage.lease now).1 = some cell) :
      Stepped w (.get ioContext useStrategy waitDuration now)
        ({ w with
          issued := w.issued ++ [ioContext]
          impl := { w.impl with storage := (w.impl.storage.lease now).2 } }.submit
            [⟨ioContext, .onListIteratorHandler .ok (.node cell)
              (some ⟨w.issued.length, useStrategy⟩)⟩])
  | refused {ioContext : IoContext} {useStrategy : Strategy} {waitDuration : Duration}
      {now : TimePoint} {error : Error.Code} (isSet : error.isSet = true)
      (reason : w.impl.disabled = true ∨
        w.impl.storage.NoFreeCell ∧ waitDuration = Ticks.zero) :
      Stepped w (.get ioContext useStrategy waitDuration now)
        ({ w with issued := w.issued ++ [ioContext] }.submit
          [⟨ioContext, .onListIteratorHandler error .singular
            (some ⟨w.issued.length, useStrategy⟩)⟩])
  | unlocked {ioContext : IoContext} {useStrategy : Strategy} {waitDuration : Duration}
      {now : TimePoint} (active : w.impl.disabled = false) (full : w.impl.storage.NoFreeCell)
      (waits : waitDuration ≠ Ticks.zero) :
      Stepped w (.get ioContext useStrategy waitDuration now)
        { w with
          issued := w.issued ++ [ioContext]
          unlocked := w.unlocked ++
            [⟨ioContext, ⟨w.issued.length, useStrategy⟩, waitDuration⟩] }
  | queued {index : ℕ} {now : TimePoint} {get : UnlockedGet Request IoContext}
      {callbacks : CoherentQueue Request IoContext} (isGet : w.unlocked[index]? = some get)
      (room : w.impl.callbacks.contents.length < w.impl.callbacks.capacity)
      (appended : callbacks.contents = w.impl.callbacks.contents ++
        [⟨get.request, get.ioContext, TimeTraits.add now get.waitDuration⟩])
      (capacity : callbacks.capacity = w.impl.callbacks.capacity) :
      Stepped w (.push index now)
        { w with
          impl := { w.impl with callbacks := callbacks }
          unlocked := w.unlocked.eraseIdx index }
  | overflowed {index : ℕ} {now : TimePoint} {get : UnlockedGet Request IoContext}
      (isGet : w.unlocked[index]? = some get)
      (full : w.impl.callbacks.capacity ≤ w.impl.callbacks.contents.length) :
      Stepped w (.push index now)
        ({ w with unlocked := w.unlocked.eraseIdx index }.submit
          [⟨get.ioContext, .onErrorHandler .requestQueueOverflow (some get.request)⟩])
  | ran {index : ℕ} {handle : HandleId} {submission : Submission Request IoContext}
      {request : Request} (isNew : handle ∉ w.handles)
      (isSubmitted : w.submitted[index]? = some submission)
      (isRequest : submission.task.handler = some request) :
      Stepped w (.run index handle)
        ({ w with
          submitted := w.submitted.eraseIdx index
          completed := w.completed ++ [submission] }.setHandle handle
            ⟨onGetHandler request submission.task.error submission.task.listIterator, none⟩)
  | ranMovedFrom {index : ℕ} {handle : HandleId} {submission : Submission Request IoContext}
      (isSubmitted : w.submitted[index]? = some submission)
      (isMovedFrom : submission.task.handler = none) : Stepped w (.run index handle) w.goWrong
  | operated {event : HandleEvent} {handles : Handles} (acted : w.handles.Acted event handles) :
      Stepped w (.operate event) { w with handles := handles }
  | stored {handle : HandleId} {value : V} {now : TimePoint} {ready : Handle Unit}
      {cell : CellId} (isReady : w.handles.lookup handle = some ⟨ready, none⟩)
      (holds : ready.resourceIt = some (.node cell)) (used : cell ∈ w.impl.storage.used) :
      Stepped w (.reset handle value now)
        { w with impl := { w.impl with storage := w.impl.storage.store cell value now } }
  | storedOutside {handle : HandleId} {value : V} {now : TimePoint} {ready : Handle Unit}
      {resourceIt : CellIterator} (isReady : w.handles.lookup handle = some ⟨ready, none⟩)
      (holds : ready.resourceIt = some resourceIt)
      (outside : ∀ cell, resourceIt = .node cell → cell ∉ w.impl.storage.used) :
      Stepped w (.reset handle value now) w.goWrong
  | threw {handle : HandleId} {value : V} {now : TimePoint} {ready : Handle Unit}
      (isReady : w.handles.lookup handle = some ⟨ready, none⟩)
      (unusable : ready.resourceIt = none) : Stepped w (.reset handle value now) w
  | tookBack {handle : HandleId} {now : TimePoint} {returning : Handle Unit}
      {strategy : Strategy} {cell : CellId}
      (inCall : w.handles.lookup handle =
        some ⟨returning, some ⟨some (), some strategy, .node cell⟩⟩)
      (used : cell ∈ w.impl.storage.used) (nothingQueued : w.impl.callbacks.contents = []) :
      Stepped w (.finish handle now)
        ({ w with
          impl := { w.impl with
            storage := w.impl.storage.takeBack strategy cell used now } }.setHandle handle
          ⟨returning.returned, none⟩)
  | handedOn {handle : HandleId} {now : TimePoint} {returning : Handle Unit}
      {strategy : Strategy} {cell : CellId}
      {oldest : Container.Pending Request IoContext TimePoint}
      {callbacks : CoherentQueue Request IoContext}
      (inCall : w.handles.lookup handle =
        some ⟨returning, some ⟨some (), some strategy, .node cell⟩⟩)
      (used : cell ∈ w.impl.storage.used)
      (front : w.impl.callbacks.contents = oldest :: callbacks.contents)
      (capacity : callbacks.capacity = w.impl.callbacks.capacity) :
      Stepped w (.finish handle now)
        (({ w with
          impl := { w.impl with
            storage := w.impl.storage.handOn strategy cell now
            callbacks := callbacks } }.submit
          [⟨oldest.context, .onServeQueuedHandler (.node cell) (some oldest.item)⟩]).setHandle
            handle ⟨returning.returned, none⟩)
  | finishedOutside {handle : HandleId} {now : TimePoint} {returning : Handle Unit}
      {call : PoolCall Unit} (inCall : w.handles.lookup handle = some ⟨returning, some call⟩)
      (outside : ∀ strategy cell, call = ⟨some (), some strategy, .node cell⟩ →
        cell ∉ w.impl.storage.used) : Stepped w (.finish handle now) w.goWrong
  | invalidated :
      Stepped w .invalidate
        { w with impl := { w.impl with storage := w.impl.storage.invalidate } }
  | disabled {callbacks : CoherentQueue Request IoContext} (emptied : callbacks.contents = [])
      (capacity : callbacks.capacity = w.impl.callbacks.capacity) :
      Stepped w .disable
        ({ w with impl := { w.impl with callbacks := callbacks, disabled := true } }.submit
          (w.impl.callbacks.contents.map Submission.disabledPending))
  | fired {ioContext : IoContext} {wait : ℕ} {callbacks : CoherentQueue Request IoContext}
      (same : callbacks.contents = w.impl.callbacks.contents)
      (capacity : callbacks.capacity = w.impl.callbacks.capacity) :
      Stepped w (.fire ioContext wait)
        { w with impl := { w.impl with callbacks := callbacks } }
  | delivered {completion : ℕ} {callbacks : CoherentQueue Request IoContext}
      {leaving : List (Container.Pending Request IoContext TimePoint)}
      {submissions : List (Submission Request IoContext)}
      (expired : submissions.Perm (leaving.map Submission.expiredPending))
      (split : (leaving ++ callbacks.contents).Perm w.impl.callbacks.contents)
      (sublist : callbacks.contents.Sublist w.impl.callbacks.contents)
      (capacity : callbacks.capacity = w.impl.callbacks.capacity) :
      Stepped w (.deliver completion)
        ({ w with impl := { w.impl with callbacks := callbacks } }.submit submissions)

theorem stepped_of_act {w after : World V IoContext} {event : Event V IoContext}
    (acted : w.act event = some after) : w.Stepped event after := by
  cases event with
  | get ioContext useStrategy waitDuration now =>
      rcases w.impl.get_cases ioContext ⟨w.issued.length, useStrategy⟩ waitDuration now with
        ⟨disabled, result⟩ | ⟨active, cell, isLeased, result⟩ | ⟨active, full, zero, result⟩ |
          ⟨active, full, waits, result⟩ <;>
      simp only [act, result, Option.some.injEq] at acted <;>
      subst acted
      · exact .refused rfl (Or.inl disabled)
      · exact .leased active isLeased
      · exact .refused rfl (Or.inr ⟨full, zero⟩)
      · exact .unlocked active full waits
  | push index now =>
      simp only [act] at acted
      split at acted
      · contradiction
      · next get isGet =>
          rcases w.impl.push_cases get now with
            ⟨full, result⟩ | ⟨room, callbacks, result, capacity, appended⟩ <;>
          simp only [result, Option.toList, Option.some.injEq] at acted <;>
          subst acted
          · exact .overflowed isGet full
          · simpa only [submit, List.append_nil] using .queued isGet room appended capacity
  | run index handle =>
      simp only [act] at acted
      split at acted
      · contradiction
      · next isNew =>
          split at acted
          · contradiction
          · next submission isSubmitted =>
              split at acted <;> simp only [Option.some.injEq] at acted <;> subst acted
              · next isMovedFrom => exact .ranMovedFrom isSubmitted isMovedFrom
              · next request isRequest => exact .ran isNew isSubmitted isRequest
  | reset handle value now =>
      simp only [act] at acted
      split at acted
      · contradiction
      · next ready isReady =>
          rw [Handles.ready?_eq_some] at isReady
          rcases w.impl.storage.resetThrough_cases ready value now with
            ⟨holds, result⟩ | ⟨cell, holds, used, result⟩ | ⟨resourceIt, holds, outside, result⟩ <;>
          simp only [result, Option.some.injEq] at acted <;>
          subst acted
          · exact .threw isReady holds
          · exact .stored isReady holds used
          · exact .storedOutside isReady holds outside
  | operate event =>
      simp only [act, Option.map_eq_some_iff] at acted
      rcases acted with ⟨handles, isActed, rfl⟩
      exact .operated (Handles.acted_of_act isActed)
  | finish handle now =>
      simp only [act] at acted
      split at acted
      · next returning call inCall =>
          split at acted
          · next undefined =>
              simp only [Option.some.injEq] at acted
              subst acted
              refine .finishedOutside inCall ?_
              rintro strategy cell rfl
              exact PoolImpl.giveBack_none undefined cell rfl
          · next impl submission result =>
              simp only [Option.some.injEq] at acted
              subst acted
              simp only [callSection] at result
              split at result
              · next strategy resourceIt =>
                  rcases PoolImpl.used_of_giveBack result with ⟨cell, rfl, used⟩
                  rcases w.impl.giveBack_cases strategy used now with
                    ⟨isEmpty, isDefined⟩ |
                      ⟨oldest, rest, callbacks, front, isDefined, capacity, remaining⟩ <;>
                  rw [isDefined, Option.some.injEq, Prod.mk.injEq] at result <;>
                  rcases result with ⟨rfl, rfl⟩
                  · simpa only [submit, Option.toList, List.append_nil] using
                      .tookBack inCall used isEmpty
                  · exact .handedOn inCall used (remaining ▸ front) capacity
              · contradiction
      · contradiction
  | invalidate =>
      simp only [act, Option.some.injEq] at acted
      subst acted
      exact .invalidated
  | disable =>
      rcases w.impl.disable_spec with ⟨callbacks, result, emptied, capacity⟩
      simp only [act, result, Option.some.injEq] at acted
      subst acted
      exact .disabled emptied capacity
  | fire ioContext wait =>
      simp only [act, Option.map_eq_some_iff] at acted
      rcases acted with ⟨impl, isFired, rfl⟩
      rcases PoolImpl.fire_spec isFired with ⟨callbacks, rfl, same, capacity⟩
      exact .fired same capacity
  | deliver completion =>
      simp only [act, Option.map_eq_some_iff] at acted
      rcases acted with ⟨⟨impl, submissions⟩, isDelivered, rfl⟩
      rcases PoolImpl.deliver_spec isDelivered with
        ⟨callbacks, leaving, rfl, expired, split, sublist, capacity⟩
      exact .delivered expired split sublist capacity

/-- The effect of a step, which is taken only while the behaviour is defined. -/
theorem stepped_of_step {w after : World V IoContext} {event : Event V IoContext}
    (stepped : w.step event = some after) : w.undefined = false ∧ w.Stepped event after := by
  simp only [step] at stepped
  split at stepped
  · contradiction
  · next isDefined => exact ⟨by simpa using isDefined, stepped_of_act stepped⟩

end World

end ResourcePool.Async
