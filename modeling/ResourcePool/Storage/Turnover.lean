import ResourcePool.Storage.Projection

/-!
# The order in which resources are reused

A recycled cell goes to the end of the available list, and `lease` takes from its front. As
long as the clock does not go back, the list is thus in the order in which its cells were
returned, whatever the lifespans of their values.

`lease` looks no further than to the first cell which has not expired. It follows from the
order that it leaves no cell behind whose idle time is over: `InReturnOrder` is the
invariant, over a `Timeline`, which adds the latest reading of the clock to the history.
-/

namespace ResourcePool

open Transition

universe u v w

variable {V : Type u}

/-- The history of a storage with the latest reading of the clock. -/
structure Timeline extends History where
  latest : TimePoint

namespace Timeline

def Begins (s : Storage V) (timeline : Timeline) : Prop :=
  s.Constructed timeline.latest ∧ timeline.toHistory = History.fresh timeline.latest

def record (s : Storage V) (timeline : Timeline) (action : StorageAction V) : Timeline where
  toHistory := timeline.toHistory.record s action
  latest := action.clock.getD timeline.latest

end Timeline

theorem History.record_lease_returnedAt (s : Storage V) (history : History) (now : TimePoint) :
    (history.record s (.lease now)).returnedAt = history.returnedAt := by
  simp only [History.record]
  split
  · rfl
  · rfl

/-- The clock is not behind the latest reading. -/
def StorageAction.Forward (timeline : Timeline) (action : StorageAction V) : Prop :=
  ∀ now ∈ action.clock, timeline.latest ≤ now

instance (timeline : Timeline) (action : StorageAction V) : Decidable (action.Forward timeline) :=
  inferInstanceAs (Decidable (∀ now ∈ action.clock, timeline.latest ≤ now))

theorem StorageAction.Forward.latest_le {s : Storage V} {timeline : Timeline}
    {action : StorageAction V} (forward : action.Forward timeline) :
    timeline.latest ≤ (timeline.record s action).latest := by
  simp only [Timeline.record]
  cases reading : action.clock with
  | none => exact le_refl _
  | some now => exact forward now reading

namespace Storage

/-- The available cells are in the order in which they were returned, and each expires at
the end of its idle time at the latest. -/
structure InReturnOrder (s : Storage V) (timeline : Timeline) : Prop where
  ordered : s.available.Pairwise fun earlier later =>
    timeline.returnedAt earlier ≤ timeline.returnedAt later
  past : ∀ cell ∈ s.available, timeline.returnedAt cell ≤ timeline.latest
  limited : ∀ cell ∈ s.available,
    (s.node cell).dropTime ≤ TimeTraits.add (timeline.returnedAt cell) s.idleTimeout

theorem Constructed.inReturnOrder {s : Storage V} {timeline : Timeline}
    (begins : timeline.Begins s) : s.InReturnOrder timeline := by
  rcases begins with ⟨constructed, isFresh⟩
  have returnedAt : ∀ cell, timeline.returnedAt cell = timeline.latest := by
    intro cell
    rw [isFresh]
    rfl
  rcases timeline with ⟨history, now⟩
  cases constructed with
  | empty => constructor <;> simp [Storage.empty]
  | generated capacity generator idleTimeout lifespan =>
      constructor
      · apply List.pairwise_of_forall
        intro first second
        rw [returnedAt, returnedAt]
      · exact fun cell _ => le_of_eq (returnedAt cell)
      · intro cell member
        have inRange : cell < capacity := by simpa [Storage.generated] using member
        rw [returnedAt]
        simp only [Storage.generated, inRange, dif_pos]
        exact min_le_left _ _

theorem remaining_sublist (s : Storage V) (now : TimePoint) :
    (s.remaining now).Sublist s.available :=
  List.dropWhile_sublist _

/-- What `lease` leaves available stands behind the cell which it returns. -/
theorem lease_available (s : Storage V) (now : TimePoint) :
    (s.lease now).2.available = [] ∨
    ∃ candidate, (s.lease now).1 = some candidate ∧
      s.remaining now = candidate :: (s.lease now).2.available := by
  rcases s.toLists.lease_cases now with
    ⟨candidate, rest, live, leased⟩ | ⟨_, _, _, _, leased⟩ | ⟨full, leased⟩
  · right
    simp only [lease, leased, rearrange]
    exact ⟨candidate, rfl, live⟩
  · left
    simp only [lease, leased, rearrange]
  · left
    simp only [lease, leased, rearrange]
    exact full.1

theorem lease_available_sublist (s : Storage V) (now : TimePoint) :
    (s.lease now).2.available.Sublist s.available := by
  rcases s.lease_available now with none | ⟨candidate, _, live⟩
  · rw [none]
    exact List.nil_sublist _
  · have behind : (s.lease now).2.available.Sublist (s.remaining now) := by
      rw [live]
      exact List.sublist_cons_self _ _
    exact behind.trans (s.remaining_sublist now)

namespace InReturnOrder

variable {s after : Storage V} {timeline later : Timeline}

/-- A step which makes no cell available keeps the order. -/
theorem of_sublist (inOrder : s.InReturnOrder timeline)
    (sublist : after.available.Sublist s.available)
    (idleTimeout : after.idleTimeout = s.idleTimeout)
    (dropTime : ∀ cell ∈ after.available, (after.node cell).dropTime = (s.node cell).dropTime)
    (returnedAt : ∀ cell ∈ after.available,
      later.returnedAt cell = timeline.returnedAt cell)
    (latest : timeline.latest ≤ later.latest) : after.InReturnOrder later where
  ordered := by
    apply (inOrder.ordered.sublist sublist).imp_of_mem
    intro first second firstMember secondMember ordered
    rwa [returnedAt first firstMember, returnedAt second secondMember]
  past := by
    intro cell member
    rw [returnedAt cell member]
    exact le_trans (inOrder.past cell (sublist.subset member)) latest
  limited := by
    intro cell member
    rw [returnedAt cell member, dropTime cell member, idleTimeout]
    exact inOrder.limited cell (sublist.subset member)

/-- A step which only writes to a used cell keeps the order. -/
theorem write (inOrder : s.InReturnOrder timeline) {cell : CellId} (member : cell ∈ s.used)
    (contents : Idle V) (returnedAt : later.returnedAt = timeline.returnedAt)
    (latest : timeline.latest ≤ later.latest) :
    (s.write cell contents).InReturnOrder later := by
  refine inOrder.of_sublist (List.Sublist.refl _) rfl ?_ (fun _ _ => congrFun returnedAt _) latest
  intro other available
  have different : other ≠ cell := by
    rintro rfl
    exact not_mem_available_of_mem_used member available
  exact congrArg Idle.dropTime (Function.update_of_ne different _ _)

theorem waste (inOrder : s.InReturnOrder timeline) {cell : CellId} (member : cell ∈ s.used)
    (returnedAt : ∀ other ∈ s.available, later.returnedAt other = timeline.returnedAt other)
    (latest : timeline.latest ≤ later.latest) : (s.waste cell member).InReturnOrder later := by
  refine inOrder.of_sublist (List.Sublist.refl _) rfl ?_ returnedAt latest
  intro other available
  have different : other ≠ cell := by
    rintro rfl
    exact not_mem_available_of_mem_used member available
  exact congrArg Idle.dropTime (Function.update_of_ne different _ _)

/-- A cell which is recycled comes last, since the clock does not go back. -/
theorem recycle (inOrder : s.InReturnOrder timeline) {cell : CellId} (member : cell ∈ s.used)
    {now : TimePoint} (forward : timeline.latest ≤ now) :
    (s.recycle cell member now).InReturnOrder (timeline.record s (.recycle cell now)) := by
  have apart : ∀ other ∈ s.available, other ≠ cell := by
    rintro other available rfl
    exact not_mem_available_of_mem_used member available
  have returnedAt : ∀ other ∈ s.available,
      (timeline.record s (.recycle cell now)).returnedAt other = timeline.returnedAt other :=
    fun other available => Function.update_of_ne (apart other available) _ _
  have atCell : (timeline.record s (.recycle cell now)).returnedAt cell = now :=
    Function.update_self _ _ _
  cases valid : s.isValid cell now with
  | false =>
      rw [recycle_of_not_isValid member valid]
      exact inOrder.waste member returnedAt forward
  | true =>
      rw [recycle_of_isValid member valid]
      constructor
      · apply List.pairwise_append.mpr
        refine ⟨?_, List.pairwise_singleton _ _, ?_⟩
        · apply inOrder.ordered.imp_of_mem
          intro first second firstMember secondMember ordered
          rwa [returnedAt first firstMember, returnedAt second secondMember]
        · intro other available last isLast
          rw [List.mem_singleton.mp isLast, atCell, returnedAt other available]
          exact le_trans (inOrder.past other available) forward
      · intro other isAvailable
        rcases List.mem_append.mp isAvailable with available | isLast
        · rw [returnedAt other available]
          exact le_trans (inOrder.past other available) forward
        · rw [List.mem_singleton.mp isLast, atCell]
          exact le_refl now
      · intro other isAvailable
        rcases List.mem_append.mp isAvailable with available | isLast
        · rw [returnedAt other available]
          have same := Function.update_of_ne (apart other available)
            { s.node cell with
              dropTime := min (TimeTraits.add now s.idleTimeout) (s.lifeEnd cell) } s.node
          change (Function.update s.node cell _ other).dropTime ≤ _
          rw [same]
          exact inOrder.limited other available
        · rw [List.mem_singleton.mp isLast, atCell]
          change (Function.update s.node cell _ cell).dropTime ≤ _
          rw [Function.update_self]
          exact min_le_left _ _

/-- Every action keeps the order, unless its clock is behind. -/
theorem perform (inOrder : s.InReturnOrder timeline) {action : StorageAction V}
    (forward : action.Forward timeline) (performed : s.perform action = some after) :
    after.InReturnOrder (timeline.record s action) := by
  have latest := forward.latest_le (s := s)
  cases action with
  | lease now =>
      simp only [Storage.perform, Option.some.injEq] at performed
      subst performed
      refine inOrder.of_sublist (s.lease_available_sublist now) rfl
        (fun cell _ => (s.lease_node_spec now cell).2.2.1) ?_ latest
      intro cell _
      exact congrFun (History.record_lease_returnedAt s timeline.toHistory now) cell
  | recycle cell now =>
      simp only [Storage.perform, Option.dite_none_right_eq_some, Option.some.injEq] at performed
      rcases performed with ⟨member, rfl⟩
      exact inOrder.recycle member (forward now rfl)
  | waste cell =>
      simp only [Storage.perform, Option.dite_none_right_eq_some, Option.some.injEq] at performed
      rcases performed with ⟨member, rfl⟩
      exact inOrder.waste member (fun _ _ => rfl) latest
  | handOverRecycled cell now =>
      simp only [Storage.perform, Option.ite_none_right_eq_some, Option.some.injEq] at performed
      rcases performed with ⟨member, rfl⟩
      simp only [handOver]
      split
      · exact inOrder.of_sublist (List.Sublist.refl _) rfl (fun _ _ => rfl) (fun _ _ => rfl) latest
      · exact inOrder.write member _ rfl latest
  | handOverWasted cell =>
      simp only [Storage.perform, Option.ite_none_right_eq_some, Option.some.injEq] at performed
      rcases performed with ⟨member, rfl⟩
      exact inOrder.write member _ rfl latest
  | reset cell value now =>
      simp only [Storage.perform, Option.ite_none_right_eq_some, Option.some.injEq] at performed
      rcases performed with ⟨member, rfl⟩
      exact inOrder.write member _ rfl latest
  | invalidate =>
      simp only [Storage.perform, Option.some.injEq] at performed
      subst performed
      exact inOrder.of_sublist (List.nil_sublist _) rfl (by simp [Storage.invalidate, rearrange,
        Lists.invalidate]) (fun _ _ => rfl) latest

/-- `lease` returns the cell which was returned first of those which it does not drop. -/
theorem lease_first (inOrder : s.InReturnOrder timeline) {now : TimePoint}
    {granted cell : CellId} (leased : (s.lease now).1 = some granted)
    (left : cell ∈ (s.lease now).2.available) :
    timeline.returnedAt granted ≤ timeline.returnedAt cell := by
  rcases s.lease_available now with none | ⟨candidate, isGranted, live⟩
  · simp [none] at left
  · rw [leased, Option.some.injEq] at isGranted
    subst isGranted
    have ordered := inOrder.ordered.sublist (s.remaining_sublist now)
    rw [live, List.pairwise_cons] at ordered
    exact ordered.1 cell left

/-- The idle time of the cells behind the one which `lease` returns ends later. -/
theorem lease_in_idle_time (inOrder : s.InReturnOrder timeline) {now : TimePoint}
    {cell : CellId} (left : cell ∈ (s.lease now).2.available) :
    now < TimeTraits.add (timeline.returnedAt cell) s.idleTimeout := by
  rcases s.lease_available now with none | ⟨candidate, leased, live⟩
  · simp [none] at left
  · have available : candidate ∈ s.available := by
      apply (s.remaining_sublist now).subset
      rw [live]
      exact List.mem_cons_self
    calc
      now < (s.node candidate).dropTime := Lists.lt_dropTime_of_remaining live
      _ ≤ TimeTraits.add (timeline.returnedAt candidate) s.idleTimeout :=
        inOrder.limited candidate available
      _ ≤ TimeTraits.add (timeline.returnedAt cell) s.idleTimeout :=
        TimeTraits.add_le_add_right (inOrder.lease_first leased left) s.idleTimeout

end InReturnOrder

/-- No cell is available whose idle time is over. -/
def NoneIdleOver (s : Storage V) (timeline : Timeline) (now : TimePoint) : Prop :=
  ∀ cell ∈ s.available, now < TimeTraits.add (timeline.returnedAt cell) s.idleTimeout

/-- A cell was returned no later than any which is available. -/
def ReturnedFirst (s : Storage V) (timeline : Timeline) (cell : CellId) : Prop :=
  ∀ other ∈ s.available, timeline.returnedAt cell ≤ timeline.returnedAt other

variable {State : Type v} {Event : Type w} {pool : System State Event}

/-- The runs of a pool together with the timeline of its storage. -/
def withTimeline (simulation : Simulation pool (system V)) :
    System (State × Timeline) Event :=
  pool.withHistory (fun state => Timeline.Begins (simulation.project state))
    (simulation.observe Timeline.record)

/-- An event reads no clock which is behind the latest reading. -/
def ReadsForward (simulation : Simulation pool (system V)) (pair : State × Timeline)
    (event : Event) : Prop :=
  ∀ action ∈ simulation.action pair.1 event, action.Forward pair.2

instance (simulation : Simulation pool (system V)) (pair : State × Timeline) (event : Event) :
    Decidable (ReadsForward simulation pair event) :=
  inferInstanceAs (Decidable (∀ action ∈ simulation.action pair.1 event, action.Forward pair.2))

theorem inReturnOrder_of_pool {simulation : Simulation pool (system V)} {state : State}
    {timeline : Timeline}
    (reached : (withTimeline simulation).ReachableVia (ReadsForward simulation)
      (state, timeline)) : (simulation.project state).InReturnOrder timeline := by
  have projected : ((system V).withHistory Timeline.Begins Timeline.record).ReachableVia
      (fun pair action => action.Forward pair.2) (simulation.project state, timeline) :=
    (simulation.withHistory Timeline.Begins Timeline.record).reachableVia
      (fun pair event action forward performs => forward action performs) reached
  apply System.ReachableVia.invariant
    (motive := fun pair : Storage V × Timeline => pair.1.InReturnOrder pair.2) ?_ ?_ projected
  · rintro ⟨start, begun⟩ ⟨_, begins⟩
    exact Constructed.inReturnOrder begins
  · rintro ⟨before, past⟩ action ⟨after, later⟩ inOrder forward stepped
    rcases System.withHistory_step_eq_some.mp stepped with ⟨performed, rfl⟩
    exact inOrder.perform forward performed

theorem noneIdleOver_of_pool {simulation : Simulation pool (system V)} {state after : State}
    {timeline : Timeline} {event : Event} {now : TimePoint}
    (reached : (withTimeline simulation).ReachableVia (ReadsForward simulation)
      (state, timeline))
    (stepped : pool.step state event = some after)
    (leases : simulation.action state event = some (.lease now)) :
    (simulation.project after).NoneIdleOver timeline now ∧
      ∀ granted, (simulation.project state).granted (.lease now) = some granted →
        (simulation.project after).ReturnedFirst timeline granted := by
  have inOrder := inReturnOrder_of_pool reached
  have performed := perform_of_step simulation stepped leases
  rw [← Option.some.inj performed]
  exact ⟨fun _ => inOrder.lease_in_idle_time, fun _ leased _ => inOrder.lease_first leased⟩

end Storage

end ResourcePool
