import Mathlib.Data.List.AList
import Mathlib.Logic.Function.Basic
import ResourcePool.Container.Multimap
import ResourcePool.TimeTraits

/-!
# The request queue of the asynchronous pool

A queued request lies in a list node, `ExpiringRequest`, and is reached in two ways:
by the list of ordered requests, oldest first, and by the multimap of deadlines, whose
elements point to the nodes. A node holds an iterator to itself and an iterator to its
element of the multimap. Nodes are never freed; those not in use lie in a list of their
own and are used again. `Indexes` are the nodes with these lists and this multimap.

`Queue` adds the timers, one for each `io_context`. Arming, aborting and completing a
wait belong to the timers of asio; the waits which have completed and whose handler, a
call of `cancel`, has not run yet are part of the state.

An operation is undefined, `none`, where the code would use a null pointer, a singular
iterator or an iterator to an erased element.
-/

namespace ResourcePool.Async

open Container

/-- The identity of a list node, which an iterator or a pointer to it denotes. -/
abbrev NodeId := ℕ

/-- `queue::expiring_request`. Its members are null or singular, and its request empty,
in a node just constructed; its request is empty again once it is moved from. -/
structure ExpiringRequest (Request IoContext : Type) where
  ioContext : Option IoContext
  request : Option Request
  orderIt : Option NodeId
  expiresAtIt : Option EntryId

/-- `queued_value`, whose request is `none` if it was moved out of an empty one. -/
structure QueuedValue (Request IoContext : Type) where
  request : Option Request
  ioContext : IoContext
  deriving DecidableEq

/-- The nodes of a queue with its two lists and its multimap. -/
structure Indexes (Request IoContext : Type) where
  node : NodeId → ExpiringRequest Request IoContext
  nodes : ℕ
  orderedRequestsPool : List NodeId
  orderedRequests : List NodeId
  expiresAtRequests : Multimap TimePoint NodeId

namespace Indexes

variable {Request IoContext : Type}

def empty : Indexes Request IoContext where
  node _ := ⟨none, none, none, none⟩
  nodes := 0
  orderedRequestsPool := []
  orderedRequests := []
  expiresAtRequests := Multimap.empty

/-- The beginning of `push`: a node from the pool, or a new one, becomes the last of the
ordered requests. -/
def acquire (x : Indexes Request IoContext) : NodeId × Indexes Request IoContext :=
  match x.orderedRequestsPool with
  | [] =>
      (x.nodes,
        { x with
          nodes := x.nodes + 1
          orderedRequests := x.orderedRequests ++ [x.nodes] })
  | orderIt :: pool =>
      (orderIt,
        { x with
          orderedRequestsPool := pool
          orderedRequests := x.orderedRequests ++ [orderIt] })

/-- `push` up to the update of the timer. -/
def enqueue (x : Indexes Request IoContext) (ioContext : IoContext) (request : Request)
    (expiresAt : TimePoint) : Indexes Request IoContext :=
  let (orderIt, x) := x.acquire
  { x with
    node := Function.update x.node orderIt
      { ioContext := some ioContext
        request := some request
        orderIt := some orderIt
        expiresAtIt := some x.expiresAtRequests.nextId }
    expiresAtRequests := x.expiresAtRequests.insert expiresAt orderIt }

/-- A node goes back to the front of the pool. -/
def release (x : Indexes Request IoContext) (it : NodeId) : Option (Indexes Request IoContext) :=
  if it ∈ x.orderedRequests then
    some { x with
      orderedRequests := x.orderedRequests.erase it
      orderedRequestsPool := it :: x.orderedRequestsPool }
  else none

/-- The request of a node is moved from. -/
def moveRequest (x : Indexes Request IoContext) (it : NodeId) : Indexes Request IoContext :=
  { x with node := Function.update x.node it { x.node it with request := none } }

/-- An element of the multimap is erased through an iterator. -/
def eraseDeadline (x : Indexes Request IoContext) (it : EntryId) :
    Option (Indexes Request IoContext) :=
  (x.expiresAtRequests.find? it).map fun _ =>
    { x with expiresAtRequests := x.expiresAtRequests.erase it }

/-- `pop` of the front `orderedIt` up to the update of the timer. -/
def dequeue (x : Indexes Request IoContext) (orderedIt : NodeId) :
    Option (QueuedValue Request IoContext × Indexes Request IoContext) := do
  let req := x.node orderedIt
  let ioContext ← req.ioContext
  let expiresAtIt ← req.expiresAtIt
  let erased ← (x.moveRequest orderedIt).eraseDeadline expiresAtIt
  let released ← erased.release orderedIt
  return (⟨req.request, ioContext⟩, released)

/-- One element of the loop of `cancel`: the request is posted as expired, and its node
goes back to the pool. -/
def expireOne (x : Indexes Request IoContext) (it : NodeId) :
    Option (QueuedValue Request IoContext × Indexes Request IoContext) := do
  let req := x.node it
  let ioContext ← req.ioContext
  let orderIt ← req.orderIt
  let released ← (x.moveRequest it).release orderIt
  return (⟨req.request, ioContext⟩, released)

def expireEach (x : Indexes Request IoContext) :
    List NodeId → Option (List (QueuedValue Request IoContext) × Indexes Request IoContext)
  | [] => some ([], x)
  | it :: rest => do
      let (posted, next) ← x.expireOne it
      let (others, last) ← next.expireEach rest
      return (posted :: others, last)

/-- `cancel` up to the update of the timer: the requests posted as expired. -/
def expire (x : Indexes Request IoContext) (expiresAt : TimePoint) :
    Option (List (QueuedValue Request IoContext) × Indexes Request IoContext) := do
  let (posted, last) ← x.expireEach ((x.expiresAtRequests.upTo expiresAt).map Entry.value)
  return (posted, { last with expiresAtRequests := last.expiresAtRequests.eraseUpTo expiresAt })

end Indexes

/-- A timer with the waits armed on it, each by the `expires_at` which its handler has
captured. -/
structure Timer where
  expiresAt : TimePoint
  waits : List TimePoint
  deriving DecidableEq

def Timer.start : Timer := ⟨Ticks.zero, []⟩

/-- The error code with which a wait completes. -/
inductive WaitResult where
  | success
  | operationAborted
  deriving DecidableEq

/-- A completed wait of the timer of an `io_context`, with the `expires_at` which its
handler has captured. -/
structure WaitCompletion (IoContext : Type) where
  ioContext : IoContext
  ec : WaitResult
  expiresAt : TimePoint
  deriving DecidableEq

def Timer.abort {IoContext : Type} (timer : Timer) (ioContext : IoContext) :
    List (WaitCompletion IoContext) :=
  timer.waits.map fun expiresAt => ⟨ioContext, .operationAborted, expiresAt⟩

/-- `async::detail::queue`, with the timers it drives and their completed waits. -/
structure Queue (Request IoContext : Type) extends Indexes Request IoContext where
  capacity : ℕ
  timers : AList fun _ : IoContext => Timer
  completed : List (WaitCompletion IoContext)

namespace Queue

variable {Request IoContext : Type} [DecidableEq IoContext]

def constructed (capacity : ℕ) : Queue Request IoContext where
  toIndexes := Indexes.empty
  capacity := capacity
  timers := ∅
  completed := []

def size (q : Queue Request IoContext) : ℕ := q.expiresAtRequests.size

def empty (q : Queue Request IoContext) : Bool := q.orderedRequests.isEmpty

def fitCapacity (q : Queue Request IoContext) : Bool := q.expiresAtRequests.size < q.capacity

def getTimer (q : Queue Request IoContext) (ioContext : IoContext) :
    Timer × Queue Request IoContext :=
  match q.timers.lookup ioContext with
  | some timer => (timer, q)
  | none => (Timer.start, { q with timers := q.timers.insert ioContext Timer.start })

def timer (q : Queue Request IoContext) (ioContext : IoContext) :
    Timer × Queue Request IoContext :=
  q.getTimer ioContext

/-- `queue::update_timer`. Setting the expiry of a timer, cancelling it and destroying it
abort the waits which are armed on it. -/
def updateTimer (q : Queue Request IoContext) : Option (Queue Request IoContext) :=
  match q.expiresAtRequests.entries with
  | [] =>
      some { q with
        timers := ∅
        completed := q.completed ++ q.timers.entries.flatMap fun v => v.2.abort v.1 }
  | earliestExpire :: _ => do
      let expiresAt := earliestExpire.key
      let ioContext ← (q.node earliestExpire.value).ioContext
      let (timer, q) := q.getTimer ioContext
      return { q with
        timers := q.timers.insert ioContext ⟨expiresAt, [expiresAt]⟩
        completed := q.completed ++ timer.abort ioContext }

/-- The result of `push`, with what it leaves in the request of the caller. -/
structure Pushed (Request IoContext : Type) where
  queue : Queue Request IoContext
  pushed : Bool
  request : Option Request

def push (q : Queue Request IoContext) (ioContext : IoContext) (waitDuration : Duration)
    (request : Request) (now : TimePoint) : Option (Pushed Request IoContext) :=
  if q.fitCapacity then do
    let expiresAt := TimeTraits.add now waitDuration
    let updated ← { q with toIndexes := q.enqueue ioContext request expiresAt }.updateTimer
    return ⟨updated, true, none⟩
  else
    return ⟨q, false, some request⟩

def pop (q : Queue Request IoContext) :
    Option (Option (QueuedValue Request IoContext) × Queue Request IoContext) :=
  match q.orderedRequests with
  | [] => return (none, q)
  | orderedIt :: _ => do
      let (result, indexes) ← q.dequeue orderedIt
      let updated ← { q with toIndexes := indexes }.updateTimer
      return (some result, updated)

/-- `queue::cancel`, with the requests it posts as expired. -/
def cancel (q : Queue Request IoContext) (ec : WaitResult) (expiresAt : TimePoint) :
    Option (List (QueuedValue Request IoContext) × Queue Request IoContext) :=
  match ec with
  | .operationAborted => return ([], q)
  | .success => do
      let (posted, indexes) ← q.expire expiresAt
      let updated ← { q with toIndexes := indexes }.updateTimer
      return (posted, updated)

/-- An armed wait of the timer of an `io_context` completes with success. -/
def fire (q : Queue Request IoContext) (ioContext : IoContext) (wait : ℕ) :
    Option (Queue Request IoContext) := do
  let timer ← q.timers.lookup ioContext
  let expiresAt ← timer.waits[wait]?
  return { q with
    timers := q.timers.insert ioContext { timer with waits := timer.waits.eraseIdx wait }
    completed := q.completed ++ [⟨ioContext, .success, expiresAt⟩] }

def deliver (q : Queue Request IoContext) (completion : ℕ) :
    Option (List (QueuedValue Request IoContext) × Queue Request IoContext) := do
  let wait ← q.completed[completion]?
  { q with completed := q.completed.eraseIdx completion }.cancel wait.ec wait.expiresAt

end Queue

end ResourcePool.Async
