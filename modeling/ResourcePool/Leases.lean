import Mathlib.Data.List.AList
import ResourcePool.Container.Registry
import ResourcePool.Error
import ResourcePool.Handles
import ResourcePool.Storage
import ResourcePool.Transition.System

/-!
# The leases which handles hold

Handles over any number of pools, each operation as a whole. A handle is made for a cell
which its pool has leased and which no other handle holds; the cell may be leased again
after it was returned. What the pools do to the cells when they are called is left open:
`react` may be any function.
-/

namespace ResourcePool

open Container Transition

/-- A cell of a pool. -/
structure Leased (Pool : Type) where
  pool : Pool
  cell : CellId
  deriving DecidableEq

/-- A lease, as the first handle of a cell is constructed for it. -/
structure Lease (Pool : Type) where
  pool : Pool
  cell : CellId
  useStrategy : Strategy
  deriving DecidableEq

/-- A call on a pool, with the strategy if it was requested explicitly. -/
structure Returned (Pool : Type) where
  call : PoolCall Pool
  requested : Option Strategy
  deriving DecidableEq

structure Leases (Pool V : Type) where
  handles : AList fun _ : HandleId => Handle Pool
  contents : Leased Pool → Idle V
  /-- All leases for which handles were constructed. -/
  leases : List (Lease Pool)
  /-- All calls on the pools. -/
  returned : List (Returned Pool)

inductive LeaseEvent (Pool V : Type) where
  | construct (handle : HandleId) (lease : Lease Pool)
  | create (handle : HandleId)
  | moveConstruct (handle source : HandleId)
  | moveAssign (handle source : HandleId)
  | reset (handle : HandleId) (value : V) (now : TimePoint)
  /-- `recycle` or `waste`. -/
  | giveBack (handle : HandleId) (strategy : Strategy)
  | destroy (handle : HandleId)

namespace Lease

variable {Pool : Type}

def key (lease : Lease Pool) : Leased Pool := ⟨lease.pool, lease.cell⟩

def handle (lease : Lease Pool) : Handle Pool :=
  Handle.constructed lease.pool lease.useStrategy (.node lease.cell)

/-- The lease goes back to its own pool, as requested or else by its strategy. -/
def ReturnedBy (lease : Lease Pool) (returned : Returned Pool) : Prop :=
  returned.call =
    ⟨some lease.pool, some (returned.requested.getD lease.useStrategy), .node lease.cell⟩

end Lease

/-- The cell which a handle holds. -/
def Handle.key {Pool : Type} (handle : Handle Pool) : Option (Leased Pool) :=
  match handle.poolImpl, handle.resourceIt with
  | some pool, some (.node cell) => some ⟨pool, cell⟩
  | _, _ => none

def PoolCall.key {Pool : Type} (call : PoolCall Pool) : Option (Leased Pool) :=
  match call.poolImpl, call.resourceIt with
  | some pool, .node cell => some ⟨pool, cell⟩
  | _, _ => none

namespace Leases

variable {Pool V : Type}

def initially (contents : Leased Pool → Idle V) : Leases Pool V := ⟨∅, contents, [], []⟩

def setHandle (s : Leases Pool V) (name : HandleId) (handle : Handle Pool) : Leases Pool V :=
  { s with handles := s.handles.insert name handle }

variable [DecidableEq Pool]

/-- How many usable handles hold a cell. -/
def holders (s : Leases Pool V) (key : Leased Pool) : ℕ := (held Handle.key s.handles).count key

/-- The leases of a cell, the oldest first. -/
def leasesOf (s : Leases Pool V) (key : Leased Pool) : List (Lease Pool) :=
  s.leases.filter fun lease => lease.key = key

/-- The calls which return a cell, the oldest first. -/
def returnsOf (s : Leases Pool V) (key : Leased Pool) : List (Returned Pool) :=
  s.returned.filter fun returned => returned.call.key = some key

variable (react : PoolCall Pool → (Leased Pool → Idle V) → Leased Pool → Idle V)

omit [DecidableEq Pool] in
/-- A call on a pool, and the handle after it. -/
def callPool (s : Leases Pool V) (name : HandleId) (handle : Handle Pool)
    (returned : Returned Pool) : Leases Pool V :=
  { s.setHandle name handle.returned with
    contents := react returned.call s.contents
    returned := s.returned ++ [returned] }

omit [DecidableEq Pool] in
/-- What the destructor and the assignment of a handle begin with. -/
def returnOwn (s : Leases Pool V) (name : HandleId) (handle : Handle Pool) : Leases Pool V :=
  match handle.ownCall with
  | none => s
  | some call => s.callPool react name handle ⟨call, none⟩

def act (s : Leases Pool V) :
    LeaseEvent Pool V → Option (Leases Pool V × Except Error.LogicError Unit)
  | .construct handle lease =>
      if handle ∈ s.handles then none
      else if s.holders lease.key = 0 then
        some ({ s.setHandle handle lease.handle with leases := s.leases ++ [lease] }, .ok ())
      else none
  | .create handle =>
      if handle ∈ s.handles then none
      else some (s.setHandle handle Handle.unattached, .ok ())
  | .moveConstruct handle source =>
      if handle ∈ s.handles then none
      else
        (s.handles.lookup source).map fun other =>
          ((s.setHandle source (Handle.moveConstruct other).2).setHandle handle
            (Handle.moveConstruct other).1, .ok ())
  | .moveAssign handle source => do
      let target ← s.handles.lookup handle
      let s := s.returnOwn react handle target
      let other ← s.handles.lookup source
      return ((s.setHandle handle (Handle.moveAssign target other).1).setHandle source
        (Handle.moveAssign target other).2, .ok ())
  | .reset name value now =>
      match s.handles.lookup name with
      | none => none
      | some handle =>
          match handle.resourceIt, handle.poolImpl with
          | none, _ => some (s, .error .unusableHandle)
          | some (.node cell), some pool =>
              let node := s.contents ⟨pool, cell⟩
              some ({ s with
                contents := Function.update s.contents ⟨pool, cell⟩
                  { node with value := some value, resetTime := now } }, .ok ())
          | _, _ => none
  | .giveBack name strategy =>
      (s.handles.lookup name).map fun handle =>
        match handle.giveBack strategy with
        | .error error => (s, .error error)
        | .ok call => (s.callPool react name handle ⟨call, some strategy⟩, .ok ())
  | .destroy name =>
      (s.handles.lookup name).map fun handle =>
        let s := s.returnOwn react name handle
        ({ s with handles := s.handles.erase name }, .ok ())

def system : System (Leases Pool V) (LeaseEvent Pool V) where
  Initial s := ∃ contents, s = initially contents
  step s event := (s.act react event).map Prod.fst

/-- All leases of a cell went back, each once and in order, but for the last one if there is
a handle which holds it. -/
def Settled (s : Leases Pool V) (key : Leased Pool) : Prop :=
  (s.holders key = 1 ∧ s.leasesOf key ≠ [] ∧
    List.Forall₂ Lease.ReturnedBy (s.leasesOf key).dropLast (s.returnsOf key)) ∨
  (s.holders key = 0 ∧ List.Forall₂ Lease.ReturnedBy (s.leasesOf key) (s.returnsOf key))

end Leases

/-! ### What the operations do to the leases -/

namespace Handle

variable {Pool : Type}

theorem key_of_unusable {handle : Handle Pool} (unusable : handle.resourceIt = none) :
    handle.key = none := by
  rcases handle with ⟨_ | pool, useStrategy, resourceIt⟩ <;>
  change resourceIt = none at unusable <;>
  subst unusable <;>
  rfl

@[simp]
theorem key_unattached : (unattached : Handle Pool).key = none := rfl

@[simp]
theorem key_movedFrom (handle : Handle Pool) : handle.movedFrom.key = none := rfl

@[simp]
theorem key_returned (handle : Handle Pool) : handle.returned.key = none :=
  key_of_unusable rfl

end Handle

@[simp]
theorem Lease.key_handle {Pool : Type} (lease : Lease Pool) :
    lease.handle.key = some lease.key := rfl

namespace Leases

variable {Pool V : Type} [DecidableEq Pool]
  {react : PoolCall Pool → (Leased Pool → Idle V) → Leased Pool → Idle V}
  {s after : Leases Pool V} {name : HandleId} {handle : Handle Pool}

/-- A usable handle is the last one which was constructed for its cell, or was moved from it. -/
def Holds (s : Leases Pool V) (handle : Handle Pool) : Prop :=
  handle.resourceIt = none ∨
    ∃ lease : Lease Pool, handle = lease.handle ∧ (s.leasesOf lease.key).getLast? = some lease

structure Sound (s : Leases Pool V) : Prop where
  holds : ∀ name handle, s.handles.lookup name = some handle → s.Holds handle
  settled : ∀ key, s.Settled key
  known : ∀ returned ∈ s.returned, ∃ lease ∈ s.leases, lease.ReturnedBy returned

theorem holders_replace {before : Handle Pool} (found : s.handles.lookup name = some before)
    (handle : Handle Pool) (key : Leased Pool) :
    (s.setHandle name handle).holders key + before.key.toList.count key =
      s.holders key + handle.key.toList.count key :=
  count_held_replace Handle.key handle found key

theorem holders_new (isNew : name ∉ s.handles) (handle : Handle Pool) (key : Leased Pool) :
    (s.setHandle name handle).holders key = s.holders key + handle.key.toList.count key :=
  count_held_insert Handle.key handle isNew key

theorem leasesOf_append (leases : List (Lease Pool)) (lease : Lease Pool) (key : Leased Pool) :
    (leases ++ [lease]).filter (fun lease => lease.key = key) =
      leases.filter (fun lease => lease.key = key) ++ if lease.key = key then [lease] else [] := by
  rw [List.filter_append]
  by_cases same : lease.key = key <;> simp [same]

theorem returnsOf_append (allReturned : List (Returned Pool)) (returned : Returned Pool)
    (key : Leased Pool) :
    (allReturned ++ [returned]).filter (fun returned => returned.call.key = some key) =
      allReturned.filter (fun returned => returned.call.key = some key) ++
        if returned.call.key = some key then [returned] else [] := by
  rw [List.filter_append]
  by_cases same : returned.call.key = some key <;> simp [same]

theorem initially_sound (contents : Leased Pool → Idle V) : (initially contents).Sound := by
  refine ⟨?_, fun key => Or.inr ⟨rfl, List.Forall₂.nil⟩, ?_⟩
  · intro name handle found
    contradiction
  · intro returned member
    contradiction

namespace Sound

/-- Handles which are moved, made without a lease or destroyed settle nothing. -/
theorem of_moved (sound : s.Sound) (leases : after.leases = s.leases)
    (returned : after.returned = s.returned)
    (holders : ∀ key, after.holders key = s.holders key)
    (holds : ∀ name handle, after.handles.lookup name = some handle → s.Holds handle) :
    after.Sound := by
  rcases s with ⟨handles, contents, allLeases, allReturned⟩
  rcases after with ⟨newHandles, newContents, newLeases, newReturned⟩
  change newLeases = allLeases at leases
  change newReturned = allReturned at returned
  subst leases returned
  refine ⟨holds, ?_, sound.known⟩
  intro key
  have settled := sound.settled key
  simp only [Settled] at settled ⊢
  rw [holders]
  exact settled

theorem constructed (sound : s.Sound) {lease : Lease Pool} (isNew : name ∉ s.handles)
    (nobody : s.holders lease.key = 0) :
    Sound { s.setHandle name lease.handle with leases := s.leases ++ [lease] } := by
  have counted := holders_new isNew lease.handle
  constructor
  · intro other handle found
    by_cases same : other = name
    · subst same
      rw [show handle = lease.handle from
        (Option.some.inj (AList.lookup_insert s.handles ▸ found)).symm]
      refine Or.inr ⟨lease, rfl, ?_⟩
      simp [leasesOf]
    · have older : s.handles.lookup other = some handle := by
        rw [← AList.lookup_insert_ne same]
        exact found
      rcases sound.holds other handle older with unusable | ⟨own, rfl, isLast⟩
      · exact Or.inl unusable
      · refine Or.inr ⟨own, rfl, ?_⟩
        have different : lease.key ≠ own.key := by
          intro same
          have isHeld : own.key ∈ held Handle.key s.handles := mem_held older rfl
          rw [← List.count_pos_iff] at isHeld
          rw [same] at nobody
          exact absurd nobody isHeld.ne'
        simpa [leasesOf, leasesOf_append, different] using isLast
  · intro key
    have settled := sound.settled key
    have holders := counted key
    simp only [Settled, leasesOf, leasesOf_append]
    change s.holders key = 1 ∧ _ ∨ s.holders key = 0 ∧ _ at settled
    by_cases same : lease.key = key
    · subst same
      rcases settled with ⟨held, _⟩ | ⟨_, all⟩
      · omega
      · left
        rw [if_pos rfl, List.dropLast_concat]
        refine ⟨?_, by simp, all⟩
        change (s.setHandle name lease.handle).holders lease.key = 1
        simp [holders, nobody]
    · have none : lease.handle.key.toList.count key = 0 :=
        List.count_eq_zero.mpr (by simpa using Ne.symm same)
      rw [if_neg same, List.append_nil]
      change (s.setHandle name lease.handle).holders key = 1 ∧ _ ∨
        (s.setHandle name lease.handle).holders key = 0 ∧ _
      rw [holders, none]
      exact settled
  · intro returned member
    rcases sound.known returned member with ⟨own, older, isReturned⟩
    exact ⟨own, List.mem_append_left _ older, isReturned⟩

/-- The lease which a handle holds goes back. -/
theorem callPool (sound : s.Sound) {resourceIt : CellIterator} (requested : Option Strategy)
    (found : s.handles.lookup name = some handle) (usable : handle.resourceIt = some resourceIt) :
    Sound (s.callPool react name handle
      ⟨⟨handle.poolImpl, requested <|> handle.useStrategy, resourceIt⟩, requested⟩) := by
  have counted := holders_replace found handle.returned
  rcases sound.holds name handle found with unusable | ⟨lease, rfl, isLast⟩
  · rw [usable] at unusable
    contradiction
  · rcases Option.some.inj usable with rfl
    have isReturned : lease.ReturnedBy
        ⟨⟨some lease.pool, requested <|> some lease.useStrategy, .node lease.cell⟩, requested⟩ := by
      cases requested <;> rfl
    constructor
    · intro other handle isHandle
      exact forall_insert (show s.Holds lease.handle.returned from Or.inl rfl) sound.holds isHandle
    · intro key
      have settled := sound.settled key
      have holders := counted key
      simp only [Settled, returnsOf, Leases.callPool, returnsOf_append]
      change (s.setHandle name lease.handle.returned).holders key = 1 ∧ s.leasesOf key ≠ [] ∧
          List.Forall₂ _ (s.leasesOf key).dropLast (s.returnsOf key ++ ite (_ = _) _ _) ∨
        (s.setHandle name lease.handle.returned).holders key = 0 ∧
          List.Forall₂ _ (s.leasesOf key) (s.returnsOf key ++ ite (_ = _) _ _)
      have isKey : PoolCall.key ⟨lease.handle.poolImpl, requested <|> lease.handle.useStrategy,
        .node lease.cell⟩ = some lease.key := rfl
      rw [Lease.key_handle, Handle.key_returned] at holders
      rw [isKey]
      by_cases same : lease.key = key
      · subst same
        right
        have released : (s.setHandle name lease.handle.returned).holders lease.key + 1 =
            s.holders lease.key := by simpa using holders
        rcases settled with ⟨isHeld, _, earlier⟩ | ⟨nobody, _⟩
        · refine ⟨by omega, ?_⟩
          rw [← List.dropLast_append_getLast? lease isLast, if_pos rfl]
          exact List.rel_append earlier (.cons isReturned .nil)
        · omega
      · have kept : (s.setHandle name lease.handle.returned).holders key = s.holders key := by
          simpa [same] using holders
        rw [kept, if_neg (by simpa using same), List.append_nil]
        exact settled
    · intro returned member
      rcases List.mem_append.mp member with older | newest
      · exact sound.known returned older
      · rw [List.mem_singleton] at newest
        subst newest
        have isLease := List.mem_of_getLast? isLast
        exact ⟨lease, List.mem_of_mem_filter isLease, isReturned⟩

/-- The destructor and the assignment of a handle leave it unusable first. -/
theorem returnOwn (sound : s.Sound)
    (react : PoolCall Pool → (Leased Pool → Idle V) → Leased Pool → Idle V)
    (found : s.handles.lookup name = some handle) :
    Sound (s.returnOwn react name handle) ∧
      ∃ after, (s.returnOwn react name handle).handles.lookup name = some after ∧
        after.resourceIt = none := by
  simp only [Leases.returnOwn, Handle.ownCall]
  cases usable : handle.resourceIt with
  | none => exact ⟨sound, handle, found, usable⟩
  | some resourceIt =>
      exact ⟨sound.callPool none found usable, handle.returned, AList.lookup_insert _, rfl⟩

/-- A handle without a cell takes over what another one holds, or itself. -/
theorem transfer (sound : s.Sound) {source : HandleId} {target other : Handle Pool}
    (isTarget : s.handles.lookup name = some target) (unusable : target.resourceIt = none)
    (isOther : s.handles.lookup source = some other) :
    Sound ((s.setHandle name other).setHandle source other.movedFrom) := by
  have holdsOther := sound.holds source other isOther
  refine sound.of_moved rfl rfl ?_ ?_
  · intro key
    have taken := holders_replace isTarget other key
    rw [Handle.key_of_unusable unusable] at taken
    by_cases same : source = name
    · subst same
      rw [isTarget, Option.some.injEq] at isOther
      subst isOther
      have given := holders_replace (s := s.setHandle source target) (AList.lookup_insert _)
        target.movedFrom key
      rw [Handle.key_of_unusable unusable] at given taken
      simpa using given.trans taken
    · have isOther' : (s.setHandle name other).handles.lookup source = some other := by
        rw [setHandle, AList.lookup_insert_ne same]
        exact isOther
      have given := holders_replace isOther' other.movedFrom key
      simp only [Handle.key_movedFrom, Option.toList, List.count_nil] at given taken
      omega
  · intro _ _
    apply forall_insert (show s.Holds other.movedFrom from Or.inl rfl)
    intro _ _
    exact forall_insert holdsOther sound.holds

theorem created (sound : s.Sound) (isNew : name ∉ s.handles) :
    Sound (s.setHandle name Handle.unattached) := by
  refine sound.of_moved rfl rfl ?_ ?_
  · intro key
    simpa using holders_new isNew Handle.unattached key
  · intro _ _
    exact forall_insert (show s.Holds Handle.unattached from Or.inl rfl) sound.holds

theorem moveConstructed (sound : s.Sound) {source : HandleId} {other : Handle Pool}
    (isNew : name ∉ s.handles) (isOther : s.handles.lookup source = some other) :
    Sound ((s.setHandle source other.movedFrom).setHandle name other) := by
  refine sound.of_moved rfl rfl ?_ ?_
  · intro key
    exact count_held_move isNew isOther (Handle.key_movedFrom other) key
  · intro _ _
    apply forall_insert (sound.holds source other isOther)
    intro _ _
    exact forall_insert (show s.Holds other.movedFrom from Or.inl rfl) sound.holds

theorem destroyed (sound : s.Sound) (found : s.handles.lookup name = some handle)
    (unusable : handle.resourceIt = none) :
    Sound { s with handles := s.handles.erase name } := by
  refine sound.of_moved rfl rfl ?_ ?_
  · intro key
    have removed := count_held_erase Handle.key found key
    rw [Handle.key_of_unusable unusable] at removed
    simpa [holders] using removed
  · intro other kept isKept
    by_cases same : other = name
    · subst same
      rw [AList.lookup_erase] at isKept
      contradiction
    · rw [AList.lookup_erase_ne same] at isKept
      exact sound.holds other kept isKept

theorem act (sound : s.Sound) {event : LeaseEvent Pool V} {result : Except Error.LogicError Unit}
    (acted : s.act react event = some (after, result)) : after.Sound := by
  cases event with
  | construct handle lease =>
      simp only [Leases.act, Option.ite_none_left_eq_some, Option.ite_none_right_eq_some,
        Option.some.injEq, Prod.mk.injEq] at acted
      rcases acted with ⟨isNew, nobody, rfl, _⟩
      exact sound.constructed isNew nobody
  | create handle =>
      simp only [Leases.act, Option.ite_none_left_eq_some, Option.some.injEq,
        Prod.mk.injEq] at acted
      rcases acted with ⟨isNew, rfl, _⟩
      exact sound.created isNew
  | moveConstruct handle source =>
      simp only [Leases.act, Option.ite_none_left_eq_some, Option.map_eq_some_iff,
        Prod.mk.injEq] at acted
      rcases acted with ⟨isNew, other, isOther, rfl, _⟩
      exact sound.moveConstructed isNew isOther
  | moveAssign handle source =>
      simp only [Leases.act, Option.bind_eq_bind, Option.bind_eq_some_iff, Option.pure_def,
        Option.some.injEq, Prod.mk.injEq] at acted
      rcases acted with ⟨target, isTarget, other, isOther, rfl, _⟩
      rcases sound.returnOwn react isTarget with
        ⟨returned, released, isReleased, unusable⟩
      exact returned.transfer isReleased unusable isOther
  | reset name value now =>
      simp only [Leases.act] at acted
      split at acted
      · contradiction
      · next handle found =>
          split at acted
          · rcases Prod.mk.inj (Option.some.inj acted) with ⟨rfl, _⟩
            exact sound
          · rcases Prod.mk.inj (Option.some.inj acted) with ⟨rfl, _⟩
            exact sound.of_moved rfl rfl (fun _ => rfl) sound.holds
          · contradiction
  | giveBack name strategy =>
      simp only [Leases.act, Option.map_eq_some_iff] at acted
      rcases acted with ⟨handle, found, acted⟩
      cases usable : handle.resourceIt with
      | none =>
          simp only [Handle.giveBack, usable, Prod.mk.injEq] at acted
          rcases acted with ⟨rfl, _⟩
          exact sound
      | some resourceIt =>
          simp only [Handle.giveBack, usable, Prod.mk.injEq] at acted
          rcases acted with ⟨rfl, _⟩
          exact sound.callPool (some strategy) found usable
  | destroy name =>
      simp only [Leases.act, Option.map_eq_some_iff, Prod.mk.injEq] at acted
      rcases acted with ⟨handle, found, rfl, _⟩
      rcases sound.returnOwn react found with
        ⟨returned, released, isReleased, unusable⟩
      exact returned.destroyed isReleased unusable

end Sound

theorem sound_of_reachable (reached : (system react).Reachable s) : s.Sound := by
  apply System.Reachable.invariant ?_ ?_ reached
  · rintro _ ⟨contents, rfl⟩
    exact initially_sound contents
  · intro before event later sound stepped
    simp only [system, Option.map_eq_some_iff, Prod.exists] at stepped
    rcases stepped with ⟨_, result, acted, rfl⟩
    exact sound.act acted

/-- A cell which was leased once is held by one handle, or was returned once. -/
theorem Settled.of_single {lease : Lease Pool} (settled : s.Settled lease.key)
    (single : s.leasesOf lease.key = [lease]) :
    (s.holders lease.key = 1 ∧ s.returnsOf lease.key = []) ∨
      (s.holders lease.key = 0 ∧
        ∃ returned, s.returnsOf lease.key = [returned] ∧ lease.ReturnedBy returned) := by
  rcases settled with ⟨isHeld, _, earlier⟩ | ⟨nobody, all⟩
  · rw [single, List.dropLast_singleton, List.forall₂_nil_left_iff] at earlier
    exact Or.inl ⟨isHeld, earlier⟩
  · rw [single] at all
    rcases List.forall₂_cons_left_iff.mp all with ⟨returned, rest, isReturned, nothing, isReturns⟩
    rw [List.forall₂_nil_left_iff] at nothing
    subst nothing
    exact Or.inr ⟨nobody, returned, isReturns, isReturned⟩

/--
In every reachable state each lease of a cell has gone back exactly once, but for the last
one if exactly one usable handle holds the cell; so a cell which was leased once is held or
was returned once. All calls on the pools are such returns, each to the pool of the lease,
as explicitly requested or else by its strategy. To recycle, waste or reset an unusable
handle throws and leaves the state as it was.
-/
theorem returnsEachLeaseOnce (reached : (system react).Reachable s) :
    (∀ key, s.Settled key) ∧
    (∀ lease, s.leasesOf lease.key = [lease] →
      (s.holders lease.key = 1 ∧ s.returnsOf lease.key = []) ∨
        (s.holders lease.key = 0 ∧
          ∃ returned, s.returnsOf lease.key = [returned] ∧ lease.ReturnedBy returned)) ∧
    (∀ returned ∈ s.returned, ∃ lease ∈ s.leases, lease.ReturnedBy returned) ∧
    ∀ name handle, s.handles.lookup name = some handle → handle.unusable = true →
      (∀ strategy, s.act react (.giveBack name strategy) = some (s, .error .unusableHandle)) ∧
        ∀ value now, s.act react (.reset name value now) = some (s, .error .unusableHandle) := by
  have sound := sound_of_reachable reached
  refine ⟨sound.settled, fun lease => (sound.settled lease.key).of_single, sound.known, ?_⟩
  intro name handle found unusable
  have nothing : handle.resourceIt = none := by simpa [Handle.unusable] using unusable
  constructor
  · intro strategy
    simp only [act, found, Option.map_some, Handle.giveBack, nothing]
  · intro value now
    simp only [act, found, nothing]

/-- Cells of two pools are held, moved, assigned over, returned and leased again. -/
def exchangeRun : List (LeaseEvent Bool ℕ) :=
  [.construct 0 ⟨false, 0, .waste⟩, .construct 1 ⟨true, 0, .recycle⟩, .create 2,
    .moveConstruct 3 0, .reset 3 7 (Ticks.clamp 1), .moveAssign 3 1, .moveAssign 3 3,
    .construct 4 ⟨false, 0, .recycle⟩, .giveBack 4 .waste, .construct 5 ⟨true, 1, .waste⟩,
    .moveAssign 2 5]

theorem returnsEachLeaseOnce_exchange :
    ∃ s : Leases Bool ℕ, (system fun _ contents => contents).execute
        (initially fun _ => Idle.vacant) exchangeRun = some s ∧
      s.returned = [⟨⟨some false, some .waste, .node 0⟩, none⟩,
        ⟨⟨some true, some .recycle, .node 0⟩, none⟩,
        ⟨⟨some false, some .waste, .node 0⟩, some .waste⟩] ∧
      s.holders ⟨true, 1⟩ = 1 ∧ (∀ key, s.Settled key) ∧
      s.act (fun _ contents => contents) (.giveBack 5 .recycle) =
        some (s, .error .unusableHandle) := by
  have ran : ((system fun _ contents => contents).execute
    (initially fun _ => (Idle.vacant : Idle ℕ)) exchangeRun).isSome := rfl
  have returns := returnsEachLeaseOnce
    (System.execute_reachable ⟨_, rfl⟩ (Option.some_get ran).symm)
  refine ⟨_, (Option.some_get ran).symm, rfl, rfl, returns.1, ?_⟩
  exact (returns.2.2.2 5 _ rfl rfl).1 .recycle

end Leases

end ResourcePool
