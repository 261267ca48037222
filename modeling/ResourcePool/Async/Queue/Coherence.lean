import Mathlib.Data.List.Basic
import Mathlib.Data.List.Nodup
import ResourcePool.Container.BoundedFifo
import ResourcePool.Async.Queue

/-!
# The two indexes of the queue agree

`Indexes.Coherent` is the invariant of the nodes: every ordered request has exactly one
element in the multimap of deadlines, which points to its node, and every element points
to a node of an ordered request, which holds the iterators back to both. Under it the
operations are defined, and `Indexes.contents` reads the queued requests off the nodes.
-/

namespace ResourcePool.Async

open Container

namespace Indexes

variable {Request IoContext : Type}

/-- Ordered requests and elements of the multimap are linked with each other. -/
structure Coherent (x : Indexes Request IoContext) : Prop where
  distinct : (x.orderedRequests ++ x.orderedRequestsPool).Nodup
  constructed : ∀ it ∈ x.orderedRequests ++ x.orderedRequestsPool, it < x.nodes
  indexed : (x.expiresAtRequests.entries.map Entry.value).Perm x.orderedRequests
  linked : ∀ entry ∈ x.expiresAtRequests.entries, ∃ request ioContext,
    x.node entry.value = ⟨some ioContext, some request, some entry.value, some entry.id⟩

/-- The queued request in a node, found as `pop` finds it. -/
def queued? (x : Indexes Request IoContext) (it : NodeId) :
    Option (Pending Request IoContext TimePoint) := do
  let request ← (x.node it).request
  let ioContext ← (x.node it).ioContext
  let expiresAtIt ← (x.node it).expiresAtIt
  let entry ← x.expiresAtRequests.find? expiresAtIt
  return ⟨request, ioContext, entry.key⟩

/-- The queued requests, oldest first. -/
def contents (x : Indexes Request IoContext) : List (Pending Request IoContext TimePoint) :=
  x.orderedRequests.filterMap x.queued?

/-- The request which a handler takes over with its `io_context`. -/
def handedOut (pending : Pending Request IoContext TimePoint) : QueuedValue Request IoContext :=
  ⟨some pending.item, pending.context⟩

theorem empty_coherent : (empty : Indexes Request IoContext).Coherent := by
  constructor <;> simp [empty, Multimap.empty]

@[simp]
theorem empty_contents : (empty : Indexes Request IoContext).contents = [] := rfl

namespace Coherent

variable {x : Indexes Request IoContext}

theorem ordered_nodup (coherent : x.Coherent) : x.orderedRequests.Nodup :=
  (List.nodup_append.mp coherent.distinct).1

theorem exists_entry (coherent : x.Coherent) {it : NodeId} (ordered : it ∈ x.orderedRequests) :
    ∃ entry ∈ x.expiresAtRequests.entries, entry.value = it := by
  have member := coherent.indexed.mem_iff.mpr ordered
  exact List.mem_map.mp member

theorem ordered_of_entry (coherent : x.Coherent) {entry : Entry TimePoint NodeId}
    (member : entry ∈ x.expiresAtRequests.entries) : entry.value ∈ x.orderedRequests :=
  coherent.indexed.mem_iff.mp (List.mem_map_of_mem member)

theorem entry_unique (coherent : x.Coherent) {first second : Entry TimePoint NodeId}
    (isFirst : first ∈ x.expiresAtRequests.entries)
    (isSecond : second ∈ x.expiresAtRequests.entries) (same : first.value = second.value) :
    first = second :=
  List.inj_on_of_nodup_map (coherent.indexed.nodup_iff.mpr coherent.ordered_nodup)
    isFirst isSecond same

theorem queued_of_entry (coherent : x.Coherent) {entry : Entry TimePoint NodeId}
    (member : entry ∈ x.expiresAtRequests.entries) :
    ∃ request ioContext,
      x.node entry.value = ⟨some ioContext, some request, some entry.value, some entry.id⟩ ∧
        x.queued? entry.value = some ⟨request, ioContext, entry.key⟩ := by
  rcases coherent.linked entry member with ⟨request, ioContext, contents⟩
  refine ⟨request, ioContext, contents, ?_⟩
  have found := Multimap.find?_eq_some_iff.mpr ⟨member, rfl⟩
  simp [queued?, contents, found]

theorem contents_length (coherent : x.Coherent) :
    x.contents.length = x.orderedRequests.length := by
  have total : ∀ it ∈ x.orderedRequests, (x.queued? it).isSome := by
    intro it ordered
    rcases coherent.exists_entry ordered with ⟨entry, member, rfl⟩
    rcases coherent.queued_of_entry member with ⟨request, ioContext, _, queued⟩
    simp [queued]
  rw [contents, List.length_filterMap_eq_countP, List.countP_eq_length]
  exact total

theorem contents_eq_nil_iff (coherent : x.Coherent) :
    x.contents = [] ↔ x.orderedRequests = [] := by
  rw [← List.length_eq_zero_iff, coherent.contents_length, List.length_eq_zero_iff]

theorem size_eq (coherent : x.Coherent) : x.expiresAtRequests.size = x.contents.length := by
  rw [coherent.contents_length, ← coherent.indexed.length_eq, List.length_map]
  rfl

/-- Choosing queued requests by their deadlines is choosing their nodes. -/
theorem filter_contents (coherent : x.Coherent) (keeps : TimePoint → Bool)
    (selects : NodeId → Bool)
    (agree : ∀ entry ∈ x.expiresAtRequests.entries, selects entry.value = keeps entry.key) :
    (x.contents.filter fun pending => keeps pending.deadline) =
      (x.orderedRequests.filter selects).filterMap x.queued? := by
  rw [contents, List.filter_filterMap, List.filterMap_filter]
  apply List.filterMap_congr
  intro it ordered
  rcases coherent.exists_entry ordered with ⟨entry, member, rfl⟩
  rcases coherent.queued_of_entry member with ⟨request, ioContext, _, queued⟩
  rw [queued, agree entry member, Option.filter_some]

/-! ### Entering the queue -/

theorem acquire_eq (coherent : x.Coherent) :
    ∃ it nodes pool,
      x.acquire =
        (it, { x with
          nodes := nodes
          orderedRequestsPool := pool
          orderedRequests := x.orderedRequests ++ [it] }) ∧
      it ∉ x.orderedRequests ∧
      ((x.orderedRequests ++ [it]) ++ pool).Nodup ∧
      ∀ other ∈ (x.orderedRequests ++ [it]) ++ pool, other < nodes := by
  have distinct := coherent.distinct
  have constructed := coherent.constructed
  cases free : x.orderedRequestsPool with
  | nil =>
      rw [free, List.append_nil] at distinct constructed
      have unused : x.nodes ∉ x.orderedRequests := by
        intro member
        exact lt_irrefl _ (constructed _ member)
      refine ⟨x.nodes, x.nodes + 1, [], by simp [acquire, free], unused, ?_, ?_⟩
      · rw [List.append_nil, List.nodup_append]
        refine ⟨distinct, List.nodup_singleton _, ?_⟩
        rintro other member _ (_ | ⟨_, ⟨⟩⟩) rfl
        exact unused member
      · intro other member
        rw [List.append_nil, List.mem_append, List.mem_singleton] at member
        rcases member with ordered | rfl
        · exact Nat.lt_succ_of_lt (constructed _ ordered)
        · exact Nat.lt_succ_self _
  | cons it pool =>
      rw [free, List.append_cons] at distinct constructed
      refine ⟨it, x.nodes, pool, by simp [acquire, free], ?_, distinct, constructed⟩
      intro member
      rw [List.append_assoc, List.nodup_append] at distinct
      exact distinct.2.2 it member it (by simp) rfl

/-- A request enters the queue behind all others. -/
theorem enqueue (coherent : x.Coherent) (ioContext : IoContext) (request : Request)
    (expiresAt : TimePoint) :
    (x.enqueue ioContext request expiresAt).Coherent ∧
      (x.enqueue ioContext request expiresAt).contents =
        x.contents ++ [⟨request, ioContext, expiresAt⟩] := by
  rcases coherent.acquire_eq with ⟨it, nodes, pool, acquired, unused, distinct, constructed⟩
  have entered : x.enqueue ioContext request expiresAt =
      { node := Function.update x.node it
          ⟨some ioContext, some request, some it, some x.expiresAtRequests.nextId⟩
        nodes := nodes
        orderedRequestsPool := pool
        orderedRequests := x.orderedRequests ++ [it]
        expiresAtRequests := x.expiresAtRequests.insert expiresAt it } := by
    simp only [Indexes.enqueue, acquired]
  have apart : ∀ entry ∈ x.expiresAtRequests.entries, entry.value ≠ it := by
    intro entry member equal
    exact unused (equal ▸ coherent.ordered_of_entry member)
  rw [entered]
  refine ⟨⟨distinct, constructed, ?_, ?_⟩, ?_⟩
  · apply ((x.expiresAtRequests.entries_insert_perm expiresAt it).map Entry.value).trans
    rw [List.map_cons]
    apply (coherent.indexed.cons it).trans
    exact (List.perm_append_singleton it x.orderedRequests).symm
  · intro entry member
    rcases Multimap.mem_insert.mp member with rfl | older
    · exact ⟨request, ioContext, by simp⟩
    · rcases coherent.linked entry older with ⟨otherRequest, otherContext, contents⟩
      exact ⟨otherRequest, otherContext, by simp [apart entry older, contents]⟩
  · have newest : (x.expiresAtRequests.insert expiresAt it).find? x.expiresAtRequests.nextId =
        some ⟨x.expiresAtRequests.nextId, expiresAt, it⟩ :=
      Multimap.find?_eq_some_iff.mpr ⟨Multimap.mem_insert.mpr (Or.inl rfl), rfl⟩
    simp only [contents, List.filterMap_append]
    congr 1
    · apply List.filterMap_congr
      intro other ordered
      rcases coherent.exists_entry ordered with ⟨entry, member, rfl⟩
      rcases coherent.queued_of_entry member with ⟨otherRequest, otherContext, contents, queued⟩
      have found : (x.expiresAtRequests.insert expiresAt it).find? entry.id = some entry :=
        Multimap.find?_eq_some_iff.mpr ⟨Multimap.mem_insert.mpr (Or.inr member), rfl⟩
      rw [queued]
      simp [queued?, apart entry member, contents, found]
    · simp [queued?, newest]

end Coherent

/-! ### Leaving the queue -/

/-- After the requests in the nodes `its` have left, one node after the other. -/
def without (x : Indexes Request IoContext) (its : List NodeId)
    (expiresAtRequests : Multimap TimePoint NodeId) : Indexes Request IoContext where
  node it := if it ∈ its then { x.node it with request := none } else x.node it
  nodes := x.nodes
  orderedRequestsPool := its.reverse ++ x.orderedRequestsPool
  orderedRequests := x.orderedRequests.filter fun it => it ∉ its
  expiresAtRequests := expiresAtRequests

section

variable {x : Indexes Request IoContext}

theorem release_moveRequest (distinct : x.orderedRequests.Nodup) {it : NodeId}
    (ordered : it ∈ x.orderedRequests) :
    (x.moveRequest it).release it = some (x.without [it] x.expiresAtRequests) := by
  have node : Function.update x.node it { x.node it with request := none } =
      fun other =>
        if other ∈ [it] then { x.node other with request := none } else x.node other := by
    funext other
    by_cases equal : other = it
    · subst equal
      simp
    · simp [equal]
  have remaining : x.orderedRequests.erase it =
      x.orderedRequests.filter fun other => other ∉ [it] := by
    rw [distinct.erase_eq_filter]
    apply List.filter_congr
    intro other _
    simp [bne, Bool.beq_eq_decide_eq]
  simp only [moveRequest, release, ordered, if_true, without, node, remaining,
    List.reverse_singleton, List.singleton_append]

theorem without_without {it : NodeId} {its : List NodeId} {first last : Multimap TimePoint NodeId}
    (apart : it ∉ its) : (x.without [it] first).without its last = x.without (it :: its) last := by
  have node : ((x.without [it] first).without its last).node =
      (x.without (it :: its) last).node := by
    funext other
    by_cases equal : other = it
    · subst equal
      simp [without, apart]
    · simp [without, equal]
  have remaining : ((x.without [it] first).without its last).orderedRequests =
      (x.without (it :: its) last).orderedRequests := by
    simp only [without, List.filter_filter]
    apply List.filter_congr
    intro other _
    simp [Bool.and_comm]
  have pool : ((x.without [it] first).without its last).orderedRequestsPool =
      (x.without (it :: its) last).orderedRequestsPool := by
    simp [without]
  simp only [without, Indexes.mk.injEq] at node remaining pool ⊢
  exact ⟨node, trivial, pool, remaining, trivial⟩

theorem queued?_without {its : List NodeId} {it : NodeId} (stays : it ∉ its) :
    (x.without its x.expiresAtRequests).queued? it = x.queued? it := by
  simp [queued?, without, stays]

/-- The loop of `cancel` posts the requests of the nodes and takes the nodes out. -/
theorem expireEach_eq {its : List NodeId} (orderedDistinct : x.orderedRequests.Nodup)
    (distinct : its.Nodup) (ordered : ∀ it ∈ its, it ∈ x.orderedRequests)
    (linked : ∀ it ∈ its, (x.queued? it).isSome ∧ (x.node it).orderIt = some it) :
    x.expireEach its =
      some ((its.filterMap x.queued?).map handedOut, x.without its x.expiresAtRequests) := by
  induction its generalizing x with
  | nil => simp [expireEach, without]
  | cons it its ih =>
      rw [List.nodup_cons] at distinct
      rcases Option.isSome_iff_exists.mp (linked it (by simp)).1 with ⟨leaving, queued⟩
      have backLink := (linked it (by simp)).2
      have isOrdered := ordered it (by simp)
      have one : x.expireOne it =
          some (handedOut leaving, x.without [it] x.expiresAtRequests) := by
        simp only [queued?, Option.bind_eq_bind, Option.bind_eq_some_iff, Option.pure_def,
          Option.some.injEq] at queued
        rcases queued with ⟨request, hasRequest, ioContext, hasContext, _, _, _, _, rfl⟩
        simp [expireOne, hasRequest, hasContext, backLink,
          release_moveRequest orderedDistinct isOrdered, handedOut]
      have stays : ∀ other ∈ its, other ∉ [it] := by
        intro other later
        rw [List.mem_singleton]
        rintro rfl
        exact distinct.1 later
      have rest := ih (x := x.without [it] x.expiresAtRequests)
        (orderedDistinct.filter _) distinct.2
        (by
          intro other later
          have := ordered other (List.mem_cons_of_mem _ later)
          simpa [without, this] using stays other later)
        (by
          intro other later
          have different : other ≠ it := by simpa using stays other later
          have isLinked := linked other (List.mem_cons_of_mem _ later)
          rw [queued?_without (stays other later)]
          simpa [without, different] using isLinked)
      have same : its.filterMap (x.without [it] x.expiresAtRequests).queued? =
          its.filterMap x.queued? :=
        List.filterMap_congr fun other later => queued?_without (stays other later)
      have combined : (x.without [it] x.expiresAtRequests).without its
          (x.without [it] x.expiresAtRequests).expiresAtRequests =
            x.without (it :: its) x.expiresAtRequests := without_without distinct.1
      rw [List.filterMap_cons_some queued, List.map_cons]
      simp only [expireEach, one, rest, same, combined, Option.bind_eq_bind, Option.bind_some,
        Option.pure_def]

end

namespace Coherent

variable {x : Indexes Request IoContext}

/-- The others stay as they were, if just the elements of those which left are erased. -/
theorem without (coherent : x.Coherent) {its : List NodeId}
    {expiresAtRequests : Multimap TimePoint NodeId} (distinct : its.Nodup)
    (ordered : ∀ it ∈ its, it ∈ x.orderedRequests)
    (erased : ∀ entry, entry ∈ expiresAtRequests.entries ↔
      entry ∈ x.expiresAtRequests.entries ∧ entry.value ∉ its) :
    (x.without its expiresAtRequests).Coherent ∧
      (x.without its expiresAtRequests).contents =
        (x.orderedRequests.filter fun it => it ∉ its).filterMap x.queued? := by
  have lists : ((x.orderedRequests.filter fun it => it ∉ its) ++
      (its.reverse ++ x.orderedRequestsPool)).Perm
        (x.orderedRequests ++ x.orderedRequestsPool) := by
    rw [← List.append_assoc]
    apply List.Perm.append_right _
    rw [List.perm_ext_iff_of_nodup]
    · intro it
      have := ordered it
      simp only [List.mem_append, List.mem_filter, List.mem_reverse, decide_eq_true_eq]
      tauto
    · rw [List.nodup_append]
      refine ⟨coherent.ordered_nodup.filter _, List.nodup_reverse.mpr distinct, ?_⟩
      rintro it kept _ left rfl
      simp only [List.mem_filter, List.mem_reverse, decide_eq_true_eq] at kept left
      exact kept.2 left
    · exact coherent.ordered_nodup
  refine ⟨⟨lists.nodup_iff.mpr coherent.distinct, ?_, ?_, ?_⟩, ?_⟩
  · intro it member
    exact coherent.constructed it (lists.mem_iff.mp member)
  · have entries : expiresAtRequests.entries.Perm
        (x.expiresAtRequests.entries.filter fun entry => entry.value ∉ its) := by
      rw [List.perm_ext_iff_of_nodup expiresAtRequests.distinct.of_map
        (x.expiresAtRequests.distinct.of_map.filter _)]
      intro entry
      rw [erased, List.mem_filter, decide_eq_true_eq]
    apply (entries.map Entry.value).trans
    have filtered := coherent.indexed.filter fun it => decide (it ∉ its)
    rwa [List.filter_map] at filtered
  · intro entry member
    rcases (erased entry).mp member with ⟨older, stays⟩
    rcases coherent.linked entry older with ⟨request, ioContext, contents⟩
    exact ⟨request, ioContext, by simp [Indexes.without, stays, contents]⟩
  · apply List.filterMap_congr
    intro it kept
    rcases List.mem_filter.mp kept with ⟨isOrdered, stays⟩
    rw [decide_eq_true_eq] at stays
    rcases coherent.exists_entry isOrdered with ⟨entry, member, rfl⟩
    rcases coherent.queued_of_entry member with ⟨request, ioContext, contents, queued⟩
    have found : expiresAtRequests.find? entry.id = some entry :=
      Multimap.find?_eq_some_iff.mpr ⟨(erased entry).mpr ⟨member, stays⟩, rfl⟩
    rw [queued]
    simp [queued?, Indexes.without, stays, contents, found]

/-- `pop` takes out the oldest request. -/
theorem dequeue (coherent : x.Coherent) {orderedIt : NodeId} {rest : List NodeId}
    (front : x.orderedRequests = orderedIt :: rest) :
    ∃ oldest after, x.dequeue orderedIt = some (handedOut oldest, after) ∧
      after.Coherent ∧ x.contents = oldest :: after.contents := by
  have member : orderedIt ∈ x.orderedRequests := by simp [front]
  rcases coherent.exists_entry member with ⟨entry, isEntry, rfl⟩
  rcases coherent.queued_of_entry isEntry with ⟨request, ioContext, contents, queued⟩
  have unique : ∀ other ∈ rest, other ≠ entry.value := by
    intro other later equal
    have distinct := coherent.ordered_nodup
    rw [front] at distinct
    exact (List.nodup_cons.mp distinct).1 (equal ▸ later)
  have others : (x.orderedRequests.filter fun it => it ∉ [entry.value]) = rest := by
    rw [front, List.filter_cons_of_neg (by simp), List.filter_eq_self]
    intro other later
    simpa using unique other later
  have found := Multimap.find?_eq_some_iff.mpr ⟨isEntry, rfl⟩
  have left : x.dequeue entry.value =
      some (handedOut ⟨request, ioContext, entry.key⟩,
        x.without [entry.value] (x.expiresAtRequests.erase entry.id)) := by
    have released := release_moveRequest
      (x := { x with expiresAtRequests := x.expiresAtRequests.erase entry.id })
      coherent.ordered_nodup member
    have moved : (x.moveRequest entry.value).eraseDeadline entry.id =
        some ({ x with expiresAtRequests := x.expiresAtRequests.erase entry.id }.moveRequest
          entry.value) := by
      simp [eraseDeadline, moveRequest, found]
    simp only [Indexes.dequeue, contents, moved, released, Option.bind_eq_bind,
      Option.bind_some, Option.pure_def]
    rfl
  have erased : ∀ other, other ∈ (x.expiresAtRequests.erase entry.id).entries ↔
      other ∈ x.expiresAtRequests.entries ∧ other.value ∉ [entry.value] := by
    intro other
    rw [Multimap.mem_erase isEntry]
    apply and_congr_right fun isOther => not_congr ?_
    rw [List.mem_singleton]
    exact ⟨fun equal => by rw [equal], coherent.entry_unique isOther isEntry⟩
  rcases coherent.without (List.nodup_singleton entry.value) (by simpa using member) erased with
    ⟨stillCoherent, remaining⟩
  refine ⟨_, _, left, stillCoherent, ?_⟩
  rw [remaining, others, Indexes.contents, front, List.filterMap_cons_some queued]

/-- `cancel` takes out the requests whose deadline the bound reaches. -/
theorem expire (coherent : x.Coherent) (bound : TimePoint) :
    ∃ posted after, x.expire bound = some (posted, after) ∧ after.Coherent ∧
      posted.Perm ((BoundedFifo.expired x.contents bound).map handedOut) ∧
      after.contents = BoundedFifo.cancel x.contents bound := by
  have entry_of : ∀ it ∈ (x.expiresAtRequests.upTo bound).map Entry.value,
      ∃ entry ∈ x.expiresAtRequests.entries, entry.key ≤ bound ∧ entry.value = it := by
    intro it member
    rcases List.mem_map.mp member with ⟨entry, reached, rfl⟩
    rcases Multimap.mem_upTo.mp reached with ⟨isEntry, due⟩
    exact ⟨entry, isEntry, due, rfl⟩
  -- a node is among those which leave just if its own deadline is reached
  have leaves_iff : ∀ entry ∈ x.expiresAtRequests.entries,
      entry.value ∈ (x.expiresAtRequests.upTo bound).map Entry.value ↔ entry.key ≤ bound := by
    intro entry isEntry
    constructor
    · intro member
      rcases entry_of entry.value member with ⟨other, isOther, due, same⟩
      rwa [← coherent.entry_unique isOther isEntry same]
    · intro due
      exact List.mem_map_of_mem (Multimap.mem_upTo.mpr ⟨isEntry, due⟩)
  generalize leaving : (x.expiresAtRequests.upTo bound).map Entry.value = its at entry_of leaves_iff
  have distinct : its.Nodup := by
    have all := coherent.indexed.nodup_iff.mpr coherent.ordered_nodup
    rw [← leaving]
    exact all.sublist ((List.takeWhile_sublist _).map _)
  have ordered : ∀ it ∈ its, it ∈ x.orderedRequests := by
    intro it member
    rcases entry_of it member with ⟨entry, isEntry, _, rfl⟩
    exact coherent.ordered_of_entry isEntry
  have linked : ∀ it ∈ its, (x.queued? it).isSome ∧ (x.node it).orderIt = some it := by
    intro it member
    rcases entry_of it member with ⟨entry, isEntry, _, rfl⟩
    rcases coherent.queued_of_entry isEntry with ⟨request, ioContext, contents, queued⟩
    simp [contents, queued]
  have expired : x.expire bound =
      some ((its.filterMap x.queued?).map handedOut,
        x.without its (x.expiresAtRequests.eraseUpTo bound)) := by
    simp only [Indexes.expire, leaving,
      expireEach_eq coherent.ordered_nodup distinct ordered linked,
      Option.bind_eq_bind, Option.bind_some, Option.pure_def]
    rfl
  have erased : ∀ entry, entry ∈ (x.expiresAtRequests.eraseUpTo bound).entries ↔
      entry ∈ x.expiresAtRequests.entries ∧ entry.value ∉ its := by
    intro entry
    apply Multimap.mem_above.trans (and_congr_right fun isEntry => ?_)
    rw [leaves_iff entry isEntry, not_le]
  rcases coherent.without distinct ordered erased with ⟨stillCoherent, remaining⟩
  refine ⟨_, _, expired, stillCoherent, ?_, ?_⟩
  · have same : (x.orderedRequests.filter fun it => it ∈ its).Perm its := by
      rw [List.perm_ext_iff_of_nodup (coherent.ordered_nodup.filter _) distinct]
      intro it
      have := ordered it
      simp only [List.mem_filter, decide_eq_true_eq]
      tauto
    have due : BoundedFifo.expired x.contents bound =
        (x.orderedRequests.filter fun it => it ∈ its).filterMap x.queued? :=
      coherent.filter_contents (fun deadline => deadline ≤ bound) (fun it => it ∈ its)
        fun entry isEntry => by simp [leaves_iff entry isEntry]
    rw [due]
    exact (same.filterMap x.queued?).symm.map _
  · rw [remaining]
    exact (coherent.filter_contents (fun deadline => bound < deadline) (fun it => it ∉ its)
      fun entry isEntry => by simp [leaves_iff entry isEntry]).symm

end Coherent

end Indexes

namespace Queue

variable {Request IoContext : Type} {q : Queue Request IoContext}

theorem fitCapacity_iff (coherent : q.Coherent) :
    q.fitCapacity = true ↔ q.contents.length < q.capacity := by
  rw [fitCapacity, decide_eq_true_iff, coherent.size_eq]

theorem empty_iff (coherent : q.Coherent) : q.empty = true ↔ q.contents = [] := by
  rw [empty, List.isEmpty_iff, coherent.contents_eq_nil_iff]

variable [DecidableEq IoContext]

@[simp]
theorem getTimer_toIndexes (q : Queue Request IoContext) (ioContext : IoContext) :
    (q.getTimer ioContext).2.toIndexes = q.toIndexes := by
  simp only [getTimer]
  split <;> rfl

@[simp]
theorem getTimer_capacity (q : Queue Request IoContext) (ioContext : IoContext) :
    (q.getTimer ioContext).2.capacity = q.capacity := by
  simp only [getTimer]
  split <;> rfl

/-- `update_timer` finds the `io_context` of the earliest request, and changes nothing but
the timers. -/
theorem updateTimer_isSome (coherent : q.Coherent) :
    ∃ after, q.updateTimer = some after ∧ after.toIndexes = q.toIndexes ∧
      after.capacity = q.capacity := by
  simp only [updateTimer]
  split
  · exact ⟨_, rfl, rfl, rfl⟩
  · next earliest rest first =>
      rcases coherent.linked earliest (by simp [first]) with ⟨request, ioContext, contents⟩
      simp only [contents]
      exact ⟨_, rfl, by simp, by simp⟩

theorem push_refused (coherent : q.Coherent) (full : q.capacity ≤ q.contents.length)
    (ioContext : IoContext) (waitDuration : Duration) (request : Request) (now : TimePoint) :
    q.push ioContext waitDuration request now = some ⟨q, false, some request⟩ := by
  have noRoom : ¬q.fitCapacity = true := by
    rw [fitCapacity_iff coherent]
    omega
  simp [push, noRoom]

theorem push_accepted (coherent : q.Coherent) (room : q.contents.length < q.capacity)
    (ioContext : IoContext) (waitDuration : Duration) (request : Request) (now : TimePoint) :
    ∃ after, q.push ioContext waitDuration request now = some ⟨after, true, none⟩ ∧
      after.Coherent ∧ after.capacity = q.capacity ∧
      after.contents = q.contents ++ [⟨request, ioContext, TimeTraits.add now waitDuration⟩] := by
  rcases coherent.enqueue ioContext request (TimeTraits.add now waitDuration) with
    ⟨entered, appended⟩
  rcases updateTimer_isSome (q := { q with
      toIndexes := q.enqueue ioContext request (TimeTraits.add now waitDuration) }) entered with
    ⟨after, updated, indexes, capacity⟩
  refine ⟨after, ?_, ?_, capacity, ?_⟩
  · simp [push, (fitCapacity_iff coherent).mpr room, updated]
  · rw [indexes]
    exact entered
  · rw [indexes]
    exact appended

theorem pop_nothing (coherent : q.Coherent) (isEmpty : q.contents = []) :
    q.pop = some (none, q) := by
  rw [coherent.contents_eq_nil_iff] at isEmpty
  simp [pop, isEmpty]

theorem pop_oldest (coherent : q.Coherent) {oldest : Pending Request IoContext TimePoint}
    {rest : List (Pending Request IoContext TimePoint)} (front : q.contents = oldest :: rest) :
    ∃ after, q.pop = some (some (Indexes.handedOut oldest), after) ∧
      after.Coherent ∧ after.capacity = q.capacity ∧ after.contents = rest := by
  cases ordered : q.orderedRequests with
  | nil =>
      rw [(coherent.contents_eq_nil_iff).mpr ordered] at front
      contradiction
  | cons orderedIt others =>
      rcases coherent.dequeue ordered with ⟨first, indexes, dequeued, left, split⟩
      rw [front, List.cons.injEq] at split
      rcases split with ⟨rfl, remaining⟩
      rcases updateTimer_isSome (q := { q with toIndexes := indexes }) left with
        ⟨after, updated, same, capacity⟩
      refine ⟨after, ?_, ?_, capacity, ?_⟩
      · simp [pop, ordered, dequeued, updated]
      · rw [same]
        exact left
      · rw [same]
        exact remaining.symm

theorem cancel_success (coherent : q.Coherent) (bound : TimePoint) :
    ∃ posted after, q.cancel .success bound = some (posted, after) ∧
      after.Coherent ∧ after.capacity = q.capacity ∧
      posted.Perm ((BoundedFifo.expired q.contents bound).map Indexes.handedOut) ∧
      after.contents = BoundedFifo.cancel q.contents bound := by
  rcases coherent.expire bound with ⟨posted, indexes, expired, left, others, remaining⟩
  rcases updateTimer_isSome (q := { q with toIndexes := indexes }) left with
    ⟨after, updated, same, capacity⟩
  refine ⟨posted, after, ?_, ?_, capacity, others, ?_⟩
  · simp [cancel, expired, updated]
  · rw [same]
    exact left
  · rw [same]
    exact remaining

theorem cancel_aborted (q : Queue Request IoContext) (bound : TimePoint) :
    q.cancel .operationAborted bound = some ([], q) := rfl

theorem fire_toIndexes {ioContext : IoContext} {wait : ℕ} {after : Queue Request IoContext}
    (fired : q.fire ioContext wait = some after) :
    after.toIndexes = q.toIndexes ∧ after.capacity = q.capacity := by
  simp only [fire, Option.bind_eq_bind, Option.bind_eq_some_iff, Option.pure_def,
    Option.some.injEq] at fired
  rcases fired with ⟨timer, _, expiresAt, _, rfl⟩
  exact ⟨rfl, rfl⟩

end Queue

/-- A queue whose indexes agree, so that its operations are defined. -/
structure CoherentQueue (Request IoContext : Type) extends Queue Request IoContext where
  coherent : toIndexes.Coherent

namespace CoherentQueue

variable {Request IoContext : Type}

/-- The value of a defined operation. -/
def value {Result : Type} (result : Option Result) (queue : Result → Queue Request IoContext)
    (isDefined : ∃ value, result = some value ∧ (queue value).Coherent) :
    { value : Result // (queue value).Coherent } :=
  match result, isDefined with
  | some value, isDefined => ⟨value, by
      rcases isDefined with ⟨other, same, coherent⟩
      exact Option.some.inj same ▸ coherent⟩
  | none, isDefined => absurd isDefined (by simp)

theorem value_eq {Result : Type} {result : Option Result}
    {queue : Result → Queue Request IoContext} {expected : Result}
    (isDefined : ∃ value, result = some value ∧ (queue value).Coherent)
    (same : result = some expected) : (value result queue isDefined).1 = expected := by
  subst same
  rfl

variable [DecidableEq IoContext]

theorem push_defined (q : CoherentQueue Request IoContext) (ioContext : IoContext)
    (waitDuration : Duration) (request : Request) (now : TimePoint) :
    ∃ pushed, q.toQueue.push ioContext waitDuration request now = some pushed ∧
      pushed.queue.Coherent := by
  rcases Nat.lt_or_ge q.contents.length q.capacity with room | full
  · rcases Queue.push_accepted q.coherent room ioContext waitDuration request now with
      ⟨after, pushed, coherent, _⟩
    exact ⟨_, pushed, coherent⟩
  · exact ⟨_, Queue.push_refused q.coherent full ioContext waitDuration request now, q.coherent⟩

theorem pop_defined (q : CoherentQueue Request IoContext) :
    ∃ popped, q.toQueue.pop = some popped ∧ popped.2.Coherent := by
  cases pending : q.contents with
  | nil => exact ⟨_, Queue.pop_nothing q.coherent pending, q.coherent⟩
  | cons oldest rest =>
      rcases Queue.pop_oldest q.coherent pending with ⟨after, popped, coherent, _⟩
      exact ⟨_, popped, coherent⟩

theorem cancel_defined (q : CoherentQueue Request IoContext) (ec : WaitResult)
    (bound : TimePoint) :
    ∃ cancelled, q.toQueue.cancel ec bound = some cancelled ∧ cancelled.2.Coherent := by
  cases ec with
  | operationAborted => exact ⟨_, Queue.cancel_aborted q.toQueue bound, q.coherent⟩
  | success =>
      rcases Queue.cancel_success q.coherent bound with ⟨posted, after, cancelled, coherent, _⟩
      exact ⟨_, cancelled, coherent⟩

def constructed (capacity : ℕ) : CoherentQueue Request IoContext where
  toQueue := Queue.constructed capacity
  coherent := Indexes.empty_coherent

/-- `queue::push`: whether it succeeds, and what it leaves in the request of the caller. -/
def push (q : CoherentQueue Request IoContext) (ioContext : IoContext) (waitDuration : Duration)
    (request : Request) (now : TimePoint) :
    Bool × Option Request × CoherentQueue Request IoContext :=
  let pushed := value _ Queue.Pushed.queue (q.push_defined ioContext waitDuration request now)
  (pushed.1.pushed, pushed.1.request, ⟨pushed.1.queue, pushed.2⟩)

def pop (q : CoherentQueue Request IoContext) :
    Option (QueuedValue Request IoContext) × CoherentQueue Request IoContext :=
  let popped := value _ Prod.snd q.pop_defined
  (popped.1.1, ⟨popped.1.2, popped.2⟩)

def cancel (q : CoherentQueue Request IoContext) (ec : WaitResult) (bound : TimePoint) :
    List (QueuedValue Request IoContext) × CoherentQueue Request IoContext :=
  let cancelled := value _ Prod.snd (q.cancel_defined ec bound)
  (cancelled.1.1, ⟨cancelled.1.2, cancelled.2⟩)

def fire (q : CoherentQueue Request IoContext) (ioContext : IoContext) (wait : ℕ) :
    Option (CoherentQueue Request IoContext) :=
  match fired : q.toQueue.fire ioContext wait with
  | none => none
  | some after => some ⟨after, (Queue.fire_toIndexes fired).1 ▸ q.coherent⟩

def deliver (q : CoherentQueue Request IoContext) (completion : ℕ) :
    Option (List (QueuedValue Request IoContext) × CoherentQueue Request IoContext) :=
  q.completed[completion]?.map fun wait =>
    cancel ⟨{ q.toQueue with completed := q.completed.eraseIdx completion }, q.coherent⟩
      wait.ec wait.expiresAt

theorem cancel_aborted (q : CoherentQueue Request IoContext) (bound : TimePoint) :
    q.cancel .operationAborted bound = ([], q) := by
  simp only [cancel, value_eq _ (Queue.cancel_aborted q.toQueue bound)]

theorem push_cases (q : CoherentQueue Request IoContext) (ioContext : IoContext)
    (waitDuration : Duration) (request : Request) (now : TimePoint) :
    (q.capacity ≤ q.contents.length ∧
      q.push ioContext waitDuration request now = (false, some request, q)) ∨
    (q.contents.length < q.capacity ∧ ∃ after,
      q.push ioContext waitDuration request now = (true, none, after) ∧
      after.capacity = q.capacity ∧
      after.contents =
        q.contents ++ [⟨request, ioContext, TimeTraits.add now waitDuration⟩]) := by
  rcases Nat.lt_or_ge q.contents.length q.capacity with room | full
  · rcases Queue.push_accepted q.coherent room ioContext waitDuration request now with
      ⟨after, pushed, coherent, capacity, appended⟩
    refine Or.inr ⟨room, ⟨after, coherent⟩, ?_, capacity, appended⟩
    simp only [push, value_eq _ pushed]
  · refine Or.inl ⟨full, ?_⟩
    simp only [push, value_eq _ (Queue.push_refused q.coherent full _ _ _ _)]

theorem pop_cases (q : CoherentQueue Request IoContext) :
    (q.contents = [] ∧ q.pop = (none, q)) ∨
    ∃ oldest rest after, q.contents = oldest :: rest ∧
      q.pop = (some (Indexes.handedOut oldest), after) ∧
      after.capacity = q.capacity ∧ after.contents = rest := by
  cases pending : q.contents with
  | nil =>
      refine Or.inl ⟨rfl, ?_⟩
      simp only [pop, value_eq _ (Queue.pop_nothing q.coherent pending)]
  | cons oldest rest =>
      rcases Queue.pop_oldest q.coherent pending with
        ⟨after, popped, coherent, capacity, remaining⟩
      refine Or.inr ⟨oldest, rest, ⟨after, coherent⟩, rfl, ?_, capacity, remaining⟩
      simp only [pop, value_eq _ popped]

theorem cancel_cases (q : CoherentQueue Request IoContext) (ec : WaitResult)
    (bound : TimePoint) :
    ∃ leaving, (q.cancel ec bound).1.Perm (leaving.map Indexes.handedOut) ∧
      (leaving ++ (q.cancel ec bound).2.contents).Perm q.contents ∧
      (q.cancel ec bound).2.contents.Sublist q.contents ∧
      (q.cancel ec bound).2.capacity = q.capacity := by
  cases ec with
  | operationAborted =>
      have same : q.cancel .operationAborted bound = ([], q) := by
        simp only [cancel, value_eq _ (Queue.cancel_aborted q.toQueue bound)]
      rw [same]
      exact ⟨[], List.Perm.refl _, List.Perm.refl _, List.Sublist.refl _, rfl⟩
  | success =>
      rcases Queue.cancel_success q.coherent bound with
        ⟨posted, after, cancelled, coherent, capacity, perm, remaining⟩
      have same : q.cancel .success bound = (posted, ⟨after, coherent⟩) := by
        simp only [cancel, value_eq _ cancelled]
      rw [same]
      refine ⟨BoundedFifo.expired q.contents bound, perm, ?_, ?_, capacity⟩
      · rw [remaining]
        exact BoundedFifo.expired_append_cancel_perm _ _
      · rw [remaining]
        exact List.filter_sublist

theorem fire_contents {q after : CoherentQueue Request IoContext} {ioContext : IoContext}
    {wait : ℕ} (fired : q.fire ioContext wait = some after) :
    after.contents = q.contents ∧ after.capacity = q.capacity := by
  simp only [fire] at fired
  split at fired
  · contradiction
  · next other isFired =>
      rcases Option.some.inj fired with rfl
      have same := Queue.fire_toIndexes isFired
      exact ⟨by rw [same.1], same.2⟩

theorem deliver_cases {q after : CoherentQueue Request IoContext} {completion : ℕ}
    {posted : List (QueuedValue Request IoContext)}
    (delivered : q.deliver completion = some (posted, after)) :
    ∃ leaving, posted.Perm (leaving.map Indexes.handedOut) ∧
      (leaving ++ after.contents).Perm q.contents ∧
      after.contents.Sublist q.contents ∧ after.capacity = q.capacity := by
  simp only [deliver, Option.map_eq_some_iff] at delivered
  rcases delivered with ⟨wait, _, cancelled⟩
  have split := cancel_cases
    ⟨{ q.toQueue with completed := q.completed.eraseIdx completion }, q.coherent⟩
    wait.ec wait.expiresAt
  rw [cancelled] at split
  exact split

end CoherentQueue

end ResourcePool.Async
