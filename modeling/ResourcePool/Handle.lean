import ResourcePool.Error
import ResourcePool.Storage

/-!
# Handles

A handle holds an iterator to a used cell and the way in which the cell is to be given
back. Its operations are written as functions of the handles they change; a call which
they make on the pool is part of the result, for the pool may be entered by other threads
before the call takes effect.

`Pool` stands for the pointers to pool implementations.
-/

namespace ResourcePool

/-- `cell_iterator`; a default-constructed one is singular. -/
inductive CellIterator where
  | singular
  | node (cell : CellId)
  deriving DecidableEq

/-- The two member functions of the handle which give its cell back. -/
inductive Strategy where
  | recycle
  | waste
  deriving DecidableEq

/-- `handle`. A default-constructed handle has no pool, no strategy and no iterator. -/
structure Handle (Pool : Type) where
  poolImpl : Option Pool
  useStrategy : Option Strategy
  resourceIt : Option CellIterator
  deriving DecidableEq

/-- A call of `recycle` or `waste` on a pool. -/
structure PoolCall (Pool : Type) where
  poolImpl : Option Pool
  strategy : Option Strategy
  resourceIt : CellIterator
  deriving DecidableEq

/-- What a strategy does to the storage when no request is queued. -/
def Storage.takeBack {V : Type} (s : Storage V) (strategy : Strategy) (cell : CellId)
    (member : cell ∈ s.used) (now : TimePoint) : Storage V :=
  match strategy with
  | .recycle => s.recycle cell member now
  | .waste => s.waste cell member

theorem Storage.takeBack_used {V : Type} (s : Storage V) (strategy : Strategy) {cell : CellId}
    (member : cell ∈ s.used) (now : TimePoint) :
    (s.takeBack strategy cell member now).used = s.used.erase cell := by
  cases strategy with
  | recycle => exact s.recycle_used member now
  | waste => rfl

theorem Storage.takeBack_cells_perm {V : Type} (s : Storage V) (strategy : Strategy)
    {cell : CellId} (member : cell ∈ s.used) (now : TimePoint) :
    (s.takeBack strategy cell member now).cells.Perm s.cells := by
  cases strategy with
  | recycle => exact s.recycle_cells_perm member now
  | waste => exact s.toLists.waste_perm member

/-- `handle::reset` at clock reading `now`: what becomes of the storage. An unusable handle
throws first, and an iterator which is not to a used cell is undefined. -/
def Storage.resetThrough {V Pool : Type} (s : Storage V) (handle : Handle Pool) (res : V)
    (now : TimePoint) : Option (Storage V) :=
  match handle.resourceIt with
  | none => some s
  | some .singular => none
  | some (.node cell) => if cell ∈ s.used then some (s.store cell res now) else none

theorem Storage.resetThrough_cases {V Pool : Type} (s : Storage V) (handle : Handle Pool)
    (res : V) (now : TimePoint) :
    (handle.resourceIt = none ∧ s.resetThrough handle res now = some s) ∨
    (∃ cell, handle.resourceIt = some (.node cell) ∧ cell ∈ s.used ∧
      s.resetThrough handle res now = some (s.store cell res now)) ∨
    (∃ resourceIt, handle.resourceIt = some resourceIt ∧
      (∀ cell, resourceIt = .node cell → cell ∉ s.used) ∧
      s.resetThrough handle res now = none) := by
  simp only [Storage.resetThrough]
  cases handle.resourceIt with
  | none => exact Or.inl ⟨rfl, rfl⟩
  | some resourceIt =>
      right
      cases resourceIt with
      | singular => exact Or.inr ⟨_, rfl, by simp, rfl⟩
      | node cell =>
          by_cases used : cell ∈ s.used
          · exact Or.inl ⟨cell, rfl, used, if_pos used⟩
          · exact Or.inr ⟨_, rfl, by simpa using used, if_neg used⟩

/-- `handle::empty`. Nothing is said of an iterator which is none to a cell. -/
def Storage.emptyThrough {V Pool : Type} (s : Storage V) (handle : Handle Pool) : Option Bool :=
  match handle.resourceIt with
  | none => some true
  | some .singular => none
  | some (.node cell) => some (s.node cell).value.isNone

/-- `handle::get`, and the operators which call it. -/
def Storage.getThrough {V Pool : Type} (s : Storage V) (handle : Handle Pool) :
    Option (Except Error.LogicError V) :=
  match handle.resourceIt with
  | none => some (.error .emptyHandle)
  | some .singular => none
  | some (.node cell) =>
      match (s.node cell).value with
      | none => some (.error .emptyHandle)
      | some value => some (.ok value)

theorem Storage.getThrough_store {V Pool : Type} (s : Storage V) {handle : Handle Pool}
    {cell : CellId} (holds : handle.resourceIt = some (.node cell)) (value : V)
    (now : TimePoint) : (s.store cell value now).getThrough handle = some (.ok value) := by
  simp [Storage.getThrough, holds, Storage.store, Storage.write, Storage.rearrange]

namespace Handle

variable {Pool : Type}

def unattached : Handle Pool := ⟨none, none, none⟩

def constructed (poolImpl : Pool) (useStrategy : Strategy) (resourceIt : CellIterator) :
    Handle Pool :=
  ⟨some poolImpl, some useStrategy, some resourceIt⟩

def unusable (handle : Handle Pool) : Bool := handle.resourceIt.isNone

/-- What is left of a handle which was moved from. -/
def movedFrom (handle : Handle Pool) : Handle Pool :=
  { handle with poolImpl := none, resourceIt := none }

/-- `handle(handle&&)`: the new handle and what is left of the other. -/
def moveConstruct (other : Handle Pool) : Handle Pool × Handle Pool :=
  (other, other.movedFrom)

/-- The end of `handle::recycle` and `handle::waste`, after the call on the pool. -/
def returned (handle : Handle Pool) : Handle Pool := { handle with resourceIt := none }

/-- `handle::recycle` or `handle::waste`: the call on the pool. -/
def giveBack (handle : Handle Pool) (strategy : Strategy) :
    Except Error.LogicError (PoolCall Pool) :=
  match handle.resourceIt with
  | none => .error .unusableHandle
  | some resourceIt => .ok ⟨handle.poolImpl, some strategy, resourceIt⟩

/-- The call which `~handle()` and `operator =` begin with. -/
def ownCall (handle : Handle Pool) : Option (PoolCall Pool) :=
  handle.resourceIt.map fun resourceIt => ⟨handle.poolImpl, handle.useStrategy, resourceIt⟩

/-- `operator =(handle&&)` after its call on the pool: both handles, for two different ones. -/
def moveAssign (_handle other : Handle Pool) : Handle Pool × Handle Pool :=
  (other, other.movedFrom)

end Handle

end ResourcePool
