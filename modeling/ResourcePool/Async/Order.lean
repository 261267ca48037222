import ResourcePool.Async.Completion

/-!
# Requests are served in turn

The order in which requests were accepted by the queue is on record next to a run of the
pool. Those which left the queue with a cell, or when the pool was disabled, and after them
those which are still queued, come in the order in which they were accepted. A request may
drop out of this order when its deadline comes, and is never overtaken.
-/

namespace ResourcePool.Async

namespace Task

variable {Request : Type}

/-- The request which has left the queue in its turn, with a cell, or because the pool was
disabled. -/
def served? : Task Request → Option Request
  | .onServeQueuedHandler _ handler => handler
  | .onErrorHandler error handler => if error = .disabled then handler else none
  | .onListIteratorHandler .. | .expiredHandler _ => none

/-- The request which has left the queue because its deadline came. -/
def expired? : Task Request → Option Request
  | .expiredHandler handler => handler
  | .onListIteratorHandler .. | .onErrorHandler .. | .onServeQueuedHandler .. => none

end Task

namespace World

open Transition Container

variable {V IoContext : Type} [DecidableEq IoContext]

/-- The requests in the order in which the queue has accepted them. -/
def observeAccepted (w : World V IoContext) (accepted : List Request) :
    Event V IoContext → List Request
  | .push get now =>
      match w.unlocked[get]? with
      | none => accepted
      | some unlocked =>
          if (w.impl.callbacks.push unlocked.ioContext unlocked.waitDuration unlocked.request
              now).1 then
            accepted ++ [unlocked.request]
          else accepted
  | _ => accepted

def servedBy (submissions : List (Submission Request IoContext)) : List Request :=
  submissions.filterMap fun submission => submission.task.served?

def expiredBy (submissions : List (Submission Request IoContext)) : List Request :=
  submissions.filterMap fun submission => submission.task.expired?

def queued (w : World V IoContext) : List Request :=
  w.impl.callbacks.contents.map Pending.item

/-- The requests served, and after them those which wait, come in the order of acceptance.
All others have expired. -/
structure InOrder (w : World V IoContext) (accepted : List Request) : Prop where
  order : (servedBy w.log ++ w.queued).Sublist accepted
  split : (servedBy w.log ++ w.queued ++ expiredBy w.log).Perm accepted
  nodup : (accepted.map Request.id).Nodup
  issued : ∀ request ∈ accepted, request.id < w.issued.length
  elsewhere : ∀ request ∈ accepted, ∀ get ∈ w.unlocked, get.request.id ≠ request.id

omit [DecidableEq IoContext] in
/-- A step submits completions, and some requests may drop out of their order. -/
theorem InOrder.submit {w after : World V IoContext} {accepted : List Request}
    (inOrder : w.InOrder accepted) (submissions : List (Submission Request IoContext))
    (appended : after.log = w.log ++ submissions)
    (order : (servedBy submissions ++ after.queued).Sublist w.queued)
    (split : (servedBy submissions ++ after.queued ++ expiredBy submissions).Perm w.queued)
    (issued : w.issued.length ≤ after.issued.length)
    (unlocked : ∀ get ∈ after.unlocked, get ∈ w.unlocked ∨ w.issued.length ≤ get.request.id) :
    after.InOrder accepted where
  order := by
    rw [appended, servedBy, List.filterMap_append, List.append_assoc]
    exact (order.append_left (servedBy w.log)).trans inOrder.order
  split := by
    have before := List.perm_iff_count.mp inOrder.split
    have moved := List.perm_iff_count.mp split
    rw [appended, List.perm_iff_count]
    intro request
    have := before request
    have := moved request
    simp only [servedBy, expiredBy, List.filterMap_append, List.count_append] at *
    omega
  nodup := inOrder.nodup
  issued := fun request member => (inOrder.issued request member).trans_le issued
  elsewhere := by
    intro request member get isGet
    rcases unlocked get isGet with older | newer
    · exact inOrder.elsewhere request member get older
    · have := inOrder.issued request member
      omega

omit [DecidableEq IoContext] in
/-- A step which leaves the queue alone, and submits completions of other requests. -/
theorem InOrder.outOfTurn {w after : World V IoContext} {accepted : List Request}
    (inOrder : w.InOrder accepted) (submissions : List (Submission Request IoContext))
    (appended : after.log = w.log ++ submissions) (noneServed : servedBy submissions = [])
    (noneExpired : expiredBy submissions = [])
    (contents : after.impl.callbacks.contents = w.impl.callbacks.contents)
    (issued : w.issued.length ≤ after.issued.length)
    (unlocked : ∀ get ∈ after.unlocked, get ∈ w.unlocked ∨ w.issued.length ≤ get.request.id) :
    after.InOrder accepted := by
  have same : servedBy submissions ++ after.queued = w.queued := by
    rw [noneServed, List.nil_append, queued, contents, queued]
  apply inOrder.submit submissions appended (same ▸ List.Sublist.refl _) ?_ issued unlocked
  rw [same, noneExpired, List.append_nil]

omit [DecidableEq IoContext] in
/-- The numbers of all requests are different. -/
theorem Accounted.ids_nodup {w : World V IoContext} (accounted : w.Accounted) :
    (w.keys.map Prod.fst).Nodup := by
  have numbers : w.issuedKeys.map Prod.fst = (List.range w.issued.length).map some := by
    rw [issuedKeys, List.map_map, List.range_eq_range', ← List.zipIdx_map_snd 0 w.issued,
      List.map_map]
    rfl
  rw [(accounted.keys.map Prod.fst).nodup_iff, numbers]
  exact List.nodup_range.map (Option.some_injective ℕ)

omit [DecidableEq IoContext] in
/-- The numbers of the calls between their two sections are different, and were issued. -/
theorem Accounted.unlocked_ids {w : World V IoContext} (accounted : w.Accounted) :
    (w.unlocked.map fun get => get.request.id).Nodup ∧
      ∀ get ∈ w.unlocked, get.request.id < w.issued.length := by
  constructor
  · have distinct := accounted.ids_nodup
    rw [World.keys, List.map_append, List.map_append, List.map_map] at distinct
    apply List.Nodup.of_map some
    rw [List.map_map]
    exact (List.nodup_append.mp (List.nodup_append.mp distinct).1).1
  · intro get member
    have isKey : get.key ∈ w.keys := by
      simp only [World.keys, List.mem_append, List.mem_map]
      exact Or.inl (Or.inl ⟨get, member, rfl⟩)
    rcases accounted.mem_keys isKey with ⟨id, same, isIssued⟩
    obtain rfl : get.request.id = id := Option.some.inj same
    exact (List.getElem?_eq_some_iff.mp isIssued).1

theorem observeAccepted_queued {w : World V IoContext} {accepted : List Request} {index : ℕ}
    {now : TimePoint} {get : UnlockedGet Request IoContext}
    (isGet : w.unlocked[index]? = some get)
    (room : w.impl.callbacks.contents.length < w.impl.callbacks.capacity) :
    w.observeAccepted accepted (.push index now) = accepted ++ [get.request] := by
  rcases w.impl.callbacks.push_cases get.ioContext get.waitDuration get.request now with
    ⟨full, _⟩ | ⟨_, callbacks, pushed, _⟩
  · omega
  · simp [observeAccepted, isGet, pushed]

theorem observeAccepted_overflowed {w : World V IoContext} {accepted : List Request} {index : ℕ}
    {now : TimePoint} {get : UnlockedGet Request IoContext}
    (isGet : w.unlocked[index]? = some get)
    (full : w.impl.callbacks.capacity ≤ w.impl.callbacks.contents.length) :
    w.observeAccepted accepted (.push index now) = accepted := by
  rcases w.impl.callbacks.push_cases get.ioContext get.waitDuration get.request now with
    ⟨_, refused⟩ | ⟨room, _⟩
  · simp [observeAccepted, isGet, refused]
  · omega

omit [DecidableEq IoContext] in
/-- A request which the queue accepts comes after all which were accepted before. -/
theorem InOrder.accept {w : World V IoContext} {accepted : List Request}
    (inOrder : w.InOrder accepted) (accounted : w.Accounted) {index : ℕ} {now : TimePoint}
    {get : UnlockedGet Request IoContext} {callbacks : CoherentQueue Request IoContext}
    (isGet : w.unlocked[index]? = some get)
    (appended : callbacks.contents = w.impl.callbacks.contents ++
      [⟨get.request, get.ioContext, TimeTraits.add now get.waitDuration⟩]) :
    InOrder { w with
        impl := { w.impl with callbacks := callbacks }
        unlocked := w.unlocked.eraseIdx index } (accepted ++ [get.request]) where
  order := by
    change (servedBy w.log ++ callbacks.contents.map Pending.item).Sublist _
    rw [appended, List.map_append, List.map_singleton, ← List.append_assoc]
    exact inOrder.order.append (List.Sublist.refl _)
  split := by
    have before := List.perm_iff_count.mp inOrder.split
    change (servedBy w.log ++ callbacks.contents.map Pending.item ++ expiredBy w.log).Perm _
    rw [appended, List.map_append, List.map_singleton, List.perm_iff_count]
    intro request
    have := before request
    simp only [queued, List.count_append] at *
    omega
  nodup := by
    have isNew : get.request.id ∉ accepted.map Request.id := by
      intro member
      rcases List.mem_map.mp member with ⟨request, isAccepted, same⟩
      exact inOrder.elsewhere request isAccepted get (List.mem_of_getElem? isGet) same.symm
    rw [List.map_append, List.map_singleton]
    exact List.nodup_append.mpr ⟨inOrder.nodup, List.nodup_singleton _, by grind⟩
  issued := by
    intro request member
    rcases List.mem_append.mp member with older | newer
    · exact inOrder.issued request older
    · rw [List.mem_singleton.mp newer]
      exact accounted.unlocked_ids.2 get (List.mem_of_getElem? isGet)
  elsewhere := by
    intro request member other isOther
    have remains := List.mem_of_mem_eraseIdx isOther
    rcases List.mem_append.mp member with older | newer
    · exact inOrder.elsewhere request older other remains
    · rw [List.mem_singleton.mp newer]
      have split := (perm_cons_eraseIdx isGet).map fun get => get.request.id
      have distinct := split.nodup_iff.mp accounted.unlocked_ids.1
      rw [List.map_cons, List.nodup_cons] at distinct
      intro same
      exact distinct.1 (same ▸ List.mem_map_of_mem isOther)

omit [DecidableEq IoContext] in
/-- When the pool is disabled, all queued requests leave in their turn. -/
theorem servedBy_disabledPending
    (contents : List (Container.Pending Request IoContext TimePoint)) :
    servedBy (contents.map Submission.disabledPending) = contents.map Pending.item ∧
      expiredBy (contents.map Submission.disabledPending) = [] := by
  rw [servedBy, expiredBy, List.filterMap_map, List.filterMap_map]
  exact ⟨List.filterMap_eq_map_iff_forall_eq_some.mpr fun _ _ => rfl,
    List.filterMap_eq_nil_iff.mpr fun _ _ => rfl⟩

omit [DecidableEq IoContext] in
/-- Those whose deadline has come leave in any order. -/
theorem expiredBy_expiredPending {leaving : List (Container.Pending Request IoContext TimePoint)}
    {submissions : List (Submission Request IoContext)}
    (expired : submissions.Perm (leaving.map Submission.expiredPending)) :
    servedBy submissions = [] ∧ (expiredBy submissions).Perm (leaving.map Pending.item) := by
  constructor
  · rw [servedBy, List.filterMap_eq_nil_iff]
    intro submission member
    rcases List.mem_map.mp (expired.mem_iff.mp member) with ⟨pending, _, rfl⟩
    rfl
  · apply (expired.filterMap _).trans
    rw [List.filterMap_map]
    exact List.Perm.of_eq (List.filterMap_eq_map_iff_forall_eq_some.mpr fun _ _ => rfl)

theorem InOrder.step {w after : World V IoContext} {accepted : List Request}
    {event : Event V IoContext} (inOrder : w.InOrder accepted) (accounted : w.Accounted)
    (stepped : w.Stepped event after) : after.InOrder (w.observeAccepted accepted event) := by
  have older : ∀ get ∈ w.unlocked, get ∈ w.unlocked ∨ w.issued.length ≤ get.request.id :=
    fun get isGet => Or.inl isGet
  cases stepped with
  | leased active isLeased =>
      exact inOrder.outOfTurn _ rfl rfl rfl rfl (by simp [World.submit]) older
  | @refused _ _ _ _ error isSet reason =>
      exact inOrder.outOfTurn _ rfl rfl rfl rfl (by simp [World.submit]) older
  | unlocked active full waits =>
      refine inOrder.outOfTurn [] (List.append_nil _).symm rfl rfl rfl (by simp) ?_
      intro get isGet
      rcases List.mem_append.mp isGet with isOlder | isNew
      · exact Or.inl isOlder
      · rw [List.mem_singleton.mp isNew]
        exact Or.inr (Nat.le_refl _)
  | @queued index now get callbacks isGet room appended capacity =>
      rw [observeAccepted_queued isGet room]
      exact inOrder.accept accounted isGet appended
  | @overflowed index now get isGet full =>
      rw [observeAccepted_overflowed isGet full]
      exact inOrder.outOfTurn _ rfl rfl rfl rfl (Nat.le_refl _)
        fun other isOther => Or.inl (List.mem_of_mem_eraseIdx isOther)
  | ran | ranMovedFrom | operated | stored | storedOutside | threw | tookBack
  | finishedOutside | invalidated =>
      exact inOrder.outOfTurn [] (List.append_nil _).symm rfl rfl rfl (Nat.le_refl _) older
  | @handedOn handle now returning strategy cell oldest callbacks inCall used front capacity =>
      have same : [oldest.item] ++ callbacks.contents.map Pending.item = w.queued := by
        rw [queued, front, List.map_cons, List.singleton_append]
      refine inOrder.submit [⟨oldest.context, .onServeQueuedHandler (.node cell)
        (some oldest.item)⟩] rfl (same ▸ List.Sublist.refl _) ?_ (Nat.le_refl _) older
      exact List.Perm.of_eq ((List.append_nil _).trans same)
  | @disabled callbacks emptied capacity =>
      rcases servedBy_disabledPending w.impl.callbacks.contents with ⟨served, expired⟩
      have same : servedBy (w.impl.callbacks.contents.map Submission.disabledPending) ++
          callbacks.contents.map Pending.item = w.queued := by
        rw [served, emptied, List.map_nil, List.append_nil, queued]
      refine inOrder.submit (w.impl.callbacks.contents.map Submission.disabledPending) rfl
        (same ▸ List.Sublist.refl _) ?_ (Nat.le_refl _) older
      rw [expired, List.append_nil]
      exact List.Perm.of_eq same
  | @fired _ _ callbacks same capacity =>
      exact inOrder.outOfTurn [] (List.append_nil _).symm rfl rfl same (Nat.le_refl _) older
  | @delivered _ callbacks leaving submissions expired split sublist capacity =>
      rcases expiredBy_expiredPending expired with ⟨noneServed, left⟩
      refine inOrder.submit submissions rfl ?_ ?_ (Nat.le_refl _) older
      · rw [noneServed]
        exact sublist.map _
      · rw [noneServed, List.nil_append]
        apply (left.append_left _).trans
        apply List.perm_append_comm.trans
        exact List.map_append ▸ split.map Pending.item

/-- Two requests wait, of which the second expires, and the first is served. -/
def expiringRun : List (Event ℕ Bool) :=
  [.get false .recycle Ticks.zero (Ticks.clamp 10),
    .get true .waste (Ticks.clamp 9) (Ticks.clamp 11),
    .get true .waste (Ticks.clamp 5) (Ticks.clamp 11), .push 0 (Ticks.clamp 11),
    .push 0 (Ticks.clamp 12), .fire true 0, .deliver 1, .run 0 0,
    .operate (.giveBack 0 .recycle), .finish 0 (Ticks.clamp 19)]

end World

end ResourcePool.Async
