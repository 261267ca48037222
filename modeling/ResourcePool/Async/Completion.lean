import ResourcePool.Async.Pool
import ResourcePool.Container.Positions

/-!
# Every request is completed once

A request is between the two sections of its `get`, in the queue, or submitted, and what
was submitted has run or has not. `Accounted` says that the numbers found in these places,
with the `io_context`s found beside them, are those of the requests issued, each once.
Every step moves a request from one place to the next and keeps its number and its
`io_context`.
-/

namespace ResourcePool.Async

open Container

/-- The number under which a request is known, if its handler was not moved from, and the
`io_context` it is on. -/
abbrev Key (IoContext : Type) := Option ℕ × IoContext

variable {V IoContext : Type}

def UnlockedGet.key (get : UnlockedGet Request IoContext) : Key IoContext :=
  (some get.request.id, get.ioContext)

def pendingKey (pending : Container.Pending Request IoContext TimePoint) : Key IoContext :=
  (some pending.item.id, pending.context)

namespace Submission

def key (submission : Submission Request IoContext) : Key IoContext :=
  (submission.task.handler.map Request.id, submission.ioContext)

/-- The handler is called with a cell and no error, or with an error and no cell. -/
def Completes (submission : Submission Request IoContext) : Prop :=
  (submission.task.error = .ok ∧ ∃ cell, submission.task.listIterator = .node cell) ∨
    (submission.task.error.isSet = true ∧ submission.task.listIterator = .singular)

theorem completes_singleton {submission : Submission Request IoContext}
    (completes : submission.Completes) : ∀ other ∈ [submission], other.Completes := by
  intro other member
  rw [List.mem_singleton.mp member]
  exact completes

def IsFor (submission : Submission Request IoContext) (id : ℕ) : Prop :=
  submission.task.handler.map Request.id = some id

instance (submission : Submission Request IoContext) (id : ℕ) :
    Decidable (submission.IsFor id) :=
  inferInstanceAs (Decidable (_ = _))

@[simp]
theorem key_disabledPending (pending : Container.Pending Request IoContext TimePoint) :
    (disabledPending pending).key = pendingKey pending := rfl

@[simp]
theorem key_expiredPending (pending : Container.Pending Request IoContext TimePoint) :
    (expiredPending pending).key = pendingKey pending := rfl

theorem disabledPending_completes (pending : Container.Pending Request IoContext TimePoint) :
    (disabledPending pending).Completes :=
  Or.inr ⟨rfl, rfl⟩

theorem expiredPending_completes (pending : Container.Pending Request IoContext TimePoint) :
    (expiredPending pending).Completes :=
  Or.inr ⟨rfl, rfl⟩

end Submission

namespace World

variable [DecidableEq IoContext]

/-- The keys found in the places a request can be in. -/
def keys (w : World V IoContext) : List (Key IoContext) :=
  w.unlocked.map UnlockedGet.key ++ w.impl.callbacks.contents.map pendingKey ++
    w.log.map Submission.key

def issuedKeys (w : World V IoContext) : List (Key IoContext) :=
  w.issued.zipIdx.map fun issued => (some issued.2, issued.1)

/-- All requests issued are accounted for, once. -/
structure Accounted (w : World V IoContext) : Prop where
  keys : w.keys.Perm w.issuedKeys
  log : w.log.Perm (w.submitted ++ w.completed)
  completes : ∀ submission ∈ w.log, submission.Completes

omit [DecidableEq IoContext] in
theorem issuedKeys_append (issued : List IoContext) (ioContext : IoContext) :
    ((issued ++ [ioContext]).zipIdx.map fun issued =>
      ((some issued.2, issued.1) : Key IoContext)) =
        (issued.zipIdx.map fun issued => (some issued.2, issued.1)) ++
          [(some issued.length, ioContext)] := by
  simp [List.zipIdx_append]

theorem Accounted.submit {w before : World V IoContext} (accounted : before.Accounted)
    {submissions : List (Submission Request IoContext)}
    (log : w.log = before.log) (submitted : w.submitted = before.submitted)
    (completed : w.completed = before.completed)
    (keys : (w.keys ++ submissions.map Submission.key).Perm w.issuedKeys)
    (completes : ∀ submission ∈ submissions, submission.Completes) :
    (w.submit submissions).Accounted where
  keys := by
    apply List.Perm.trans (List.Perm.of_eq ?_) keys
    simp [World.keys, World.submit]
  log := by
    have older := accounted.log
    rw [← log, ← submitted, ← completed] at older
    rw [List.perm_iff_count] at older ⊢
    intro submission
    have := older submission
    simp only [World.submit, List.count_append] at this ⊢
    omega
  completes := by
    intro submission member
    rcases List.mem_append.mp member with older | newer
    · exact accounted.completes submission (log ▸ older)
    · exact completes submission newer

omit [DecidableEq IoContext] in
theorem Accounted.same {w before : World V IoContext} (accounted : before.Accounted)
    (unlocked : w.unlocked = before.unlocked)
    (contents : w.impl.callbacks.contents = before.impl.callbacks.contents)
    (log : w.log = before.log) (submitted : w.submitted = before.submitted)
    (completed : w.completed = before.completed) (issued : w.issued = before.issued) :
    w.Accounted where
  keys := by
    simp only [World.keys, issuedKeys, unlocked, contents, log, issued]
    exact accounted.keys
  log := by
    rw [log, submitted, completed]
    exact accounted.log
  completes := by
    rw [log]
    exact accounted.completes

omit [DecidableEq IoContext] in
theorem Accounted.setHandle {w : World V IoContext} (accounted : w.Accounted)
    (handle : HandleId) (state : HandleState) : (w.setHandle handle state).Accounted :=
  accounted.same rfl rfl rfl rfl rfl rfl

/-- Every step moves requests from one place to the next. -/
theorem Accounted.step {w after : World V IoContext} {event : Event V IoContext}
    (accounted : w.Accounted) (stepped : w.Stepped event after) : after.Accounted := by
  cases stepped with
  | @leased ioContext useStrategy _ _ cell active isLeased =>
      refine accounted.submit rfl rfl rfl ?_
        (Submission.completes_singleton (Or.inl ⟨rfl, cell, rfl⟩))
      simp only [issuedKeys, issuedKeys_append]
      exact accounted.keys.append_right _
  | @refused ioContext useStrategy _ _ error isSet reason =>
      refine accounted.submit rfl rfl rfl ?_
        (Submission.completes_singleton (Or.inr ⟨isSet, rfl⟩))
      simp only [issuedKeys, issuedKeys_append]
      exact accounted.keys.append_right _
  | @unlocked ioContext useStrategy waitDuration _ active full waits =>
      refine ⟨?_, accounted.log, accounted.completes⟩
      simp only [issuedKeys, issuedKeys_append]
      have counted := List.perm_iff_count.mp accounted.keys
      rw [List.perm_iff_count]
      intro key
      have := counted key
      simp only [World.keys, issuedKeys, List.map_append, List.map_cons, List.map_nil,
        List.count_append, UnlockedGet.key] at this ⊢
      omega
  | @queued index _ get callbacks isGet room appended capacity =>
      refine ⟨?_, accounted.log, accounted.completes⟩
      have counted := List.perm_iff_count.mp accounted.keys
      have split := (perm_cons_eraseIdx isGet).map UnlockedGet.key
      rw [List.perm_iff_count] at split ⊢
      intro key
      have := counted key
      have := split key
      simp only [World.keys, issuedKeys, appended, List.map_append, List.map_cons, List.map_nil,
        List.count_append, List.count_cons, List.count_nil, UnlockedGet.key, pendingKey] at *
      omega
  | @overflowed index _ get isGet full =>
      refine accounted.submit rfl rfl rfl ?_
        (Submission.completes_singleton (Or.inr ⟨rfl, rfl⟩))
      have counted := List.perm_iff_count.mp accounted.keys
      have split := (perm_cons_eraseIdx isGet).map UnlockedGet.key
      rw [List.perm_iff_count] at split ⊢
      intro key
      have := counted key
      have := split key
      simp only [World.keys, issuedKeys, List.map_cons, List.map_nil, List.count_append,
        List.count_cons, List.count_nil, UnlockedGet.key, Submission.key, Task.handler,
        Option.map_some] at *
      omega
  | @ran index handle submission request isNew isSubmitted isRequest =>
      refine ⟨accounted.keys, ?_, accounted.completes⟩
      have split := perm_cons_eraseIdx isSubmitted
      have log := accounted.log
      simp only [World.setHandle]
      rw [List.perm_iff_count] at split log ⊢
      intro other
      have := split other
      have := log other
      simp only [List.count_append, List.count_cons, List.count_nil] at *
      omega
  | ranMovedFrom | stored | storedOutside | threw | operated | tookBack | finishedOutside
  | invalidated =>
      exact accounted.same rfl rfl rfl rfl rfl rfl
  | @handedOn handle _ returning strategy cell oldest callbacks inCall used front capacity =>
      apply Accounted.setHandle
      refine accounted.submit rfl rfl rfl ?_ ?_
      · have counted := List.perm_iff_count.mp accounted.keys
        rw [List.perm_iff_count]
        intro key
        have := counted key
        simp only [World.keys, issuedKeys, front, List.map_cons, List.map_nil,
          List.count_append, List.count_cons, List.count_nil, pendingKey, Submission.key,
          Task.handler, Option.map_some] at *
        omega
      · exact Submission.completes_singleton (Or.inl ⟨rfl, cell, rfl⟩)
  | @disabled callbacks emptied capacity =>
      refine accounted.submit rfl rfl rfl ?_ ?_
      · have counted := List.perm_iff_count.mp accounted.keys
        rw [List.perm_iff_count]
        intro key
        have := counted key
        have same : (w.impl.callbacks.contents.map Submission.disabledPending).map
            Submission.key = w.impl.callbacks.contents.map pendingKey := by
          simp [List.map_map, Function.comp_def]
        simp only [World.keys, issuedKeys, emptied, same, List.map_nil, List.count_append,
          List.count_nil] at *
        omega
      · intro submission member
        rcases List.mem_map.mp member with ⟨pending, _, rfl⟩
        exact Submission.disabledPending_completes pending
  | @fired _ _ callbacks same capacity => exact accounted.same rfl same rfl rfl rfl rfl
  | @delivered _ callbacks leaving submissions expired split sublist capacity =>
      refine accounted.submit rfl rfl rfl ?_ ?_
      · have counted := List.perm_iff_count.mp accounted.keys
        have leaves := expired.map Submission.key
        have splits := split.map pendingKey
        have same : (leaving.map Submission.expiredPending).map Submission.key =
            leaving.map pendingKey := by
          simp [List.map_map, Function.comp_def]
        rw [same] at leaves
        rw [List.perm_iff_count] at leaves splits ⊢
        intro key
        have := counted key
        have := leaves key
        have := splits key
        simp only [World.keys, issuedKeys, List.map_append, List.count_append] at *
        omega
      · intro submission member
        rcases List.mem_map.mp (expired.mem_iff.mp member) with ⟨pending, _, rfl⟩
        exact Submission.expiredPending_completes pending

theorem accounted_of_reachable {w : World V IoContext}
    (reached : (system V IoContext).Reachable w) : w.Accounted := by
  apply Transition.System.Reachable.invariant
    (motive := fun w : World V IoContext => w.Accounted) ?_ ?_ reached
  · rintro _ ⟨impl, isConstructed, rfl⟩
    refine ⟨?_, List.Perm.refl _, by simp [initially]⟩
    simp [World.keys, issuedKeys, initially, isConstructed.spec]
  · intro before event after accounted stepped
    exact accounted.step (stepped_of_step stepped).2

omit [DecidableEq IoContext] in
theorem mem_issuedKeys {w : World V IoContext} {key : Key IoContext} (member : key ∈ w.issuedKeys) :
    ∃ id, key.1 = some id ∧ w.issued[id]? = some key.2 := by
  rcases List.mem_map.mp member with ⟨⟨ioContext, id⟩, isIssued, rfl⟩
  exact ⟨id, rfl, List.mem_zipIdx_iff_getElem?.mp isIssued⟩

omit [DecidableEq IoContext] in
/-- Every number below that of the next request was given to one request. -/
theorem countP_issuedKeys {w : World V IoContext} {id : ℕ} (isIssued : id < w.issued.length) :
    w.issuedKeys.countP (fun key => key.1 = some id) = 1 := by
  have numbers : w.issuedKeys.map Prod.fst = (List.range w.issued.length).map some := by
    rw [issuedKeys, List.map_map, List.range_eq_range', ← List.zipIdx_map_snd 0 w.issued,
      List.map_map]
    rfl
  have once : ((List.range w.issued.length).map some).count (some id) = 1 := by
    apply List.count_eq_one_of_mem ?_ (by simpa using isIssued)
    exact List.nodup_range.map (Option.some_injective ℕ)
  rw [← numbers, List.count_eq_countP, List.countP_map] at once
  apply Eq.trans (List.countP_congr ?_) once
  intro key _
  simp

omit [DecidableEq IoContext] in
theorem Accounted.mem_keys {w : World V IoContext} (accounted : w.Accounted)
    {key : Key IoContext} (member : key ∈ w.keys) :
    ∃ id, key.1 = some id ∧ w.issued[id]? = some key.2 :=
  mem_issuedKeys (accounted.keys.mem_iff.mp member)

/--
Every request issued is in exactly one of the four places, and has been submitted just
once if it is in one of the last two. Requests keep to their `io_context`. What is
submitted has a handler, which is called with a cell and no error or with an error and no
cell. A push which fails leaves the handler to the completion of `get`.
-/
theorem completes_exactly_once {w : World V IoContext}
    (reached : (system V IoContext).Reachable w) :
    (∀ id < w.issued.length,
      w.unlocked.countP (fun get => get.request.id = id) +
        w.impl.callbacks.contents.countP (fun pending => pending.item.id = id) +
        w.submitted.countP (fun submission => submission.IsFor id) +
        w.completed.countP (fun submission => submission.IsFor id) = 1 ∧
      w.log.countP (fun submission => submission.IsFor id) =
        w.submitted.countP (fun submission => submission.IsFor id) +
          w.completed.countP (fun submission => submission.IsFor id)) ∧
    (∀ get ∈ w.unlocked, w.issued[get.request.id]? = some get.ioContext) ∧
    (∀ pending ∈ w.impl.callbacks.contents,
      w.issued[pending.item.id]? = some pending.context) ∧
    (∀ submission ∈ w.log, ∃ request, submission.task.handler = some request ∧
      w.issued[request.id]? = some submission.ioContext ∧ submission.Completes) ∧
    w.log.Perm (w.submitted ++ w.completed) ∧
    (∀ get ∈ w.unlocked, ∀ now,
      (w.impl.callbacks.push get.ioContext get.waitDuration get.request now).1 = false →
        (w.impl.callbacks.push get.ioContext get.waitDuration get.request now).2.1 =
          some get.request) := by
  have accounted := accounted_of_reachable reached
  refine ⟨?_, ?_, ?_, ?_, accounted.log, ?_⟩
  · intro id isIssued
    have logged := accounted.log.countP_eq fun submission => submission.IsFor id
    have once := (accounted.keys.countP_eq fun key => key.1 = some id).trans
      (countP_issuedKeys isIssued)
    rw [List.countP_append] at logged
    simp only [World.keys, List.countP_append, List.countP_map, Function.comp_def,
      UnlockedGet.key, pendingKey, Option.some.injEq] at once
    change _ + w.log.countP (fun submission => submission.IsFor id) = 1 at once
    omega
  · intro get member
    have isKey : get.key ∈ w.keys := by
      simp only [World.keys, List.mem_append, List.mem_map]
      exact Or.inl (Or.inl ⟨get, member, rfl⟩)
    rcases accounted.mem_keys isKey with ⟨id, same, isIssued⟩
    have equal : get.request.id = id := Option.some.inj same
    subst equal
    exact isIssued
  · intro pending member
    have isKey : pendingKey pending ∈ w.keys := by
      simp only [World.keys, List.mem_append, List.mem_map]
      exact Or.inl (Or.inr ⟨pending, member, rfl⟩)
    rcases accounted.mem_keys isKey with ⟨id, same, isIssued⟩
    have equal : pending.item.id = id := Option.some.inj same
    subst equal
    exact isIssued
  · intro submission member
    have isKey : submission.key ∈ w.keys := by
      simp only [World.keys, List.mem_append, List.mem_map]
      exact Or.inr ⟨submission, member, rfl⟩
    rcases accounted.mem_keys isKey with ⟨id, same, isIssued⟩
    rcases Option.map_eq_some_iff.mp same with ⟨request, isRequest, rfl⟩
    exact ⟨request, isRequest, isIssued, accounted.completes submission member⟩
  · intro get _ now refused
    rcases w.impl.callbacks.push_cases get.ioContext get.waitDuration get.request now with
      ⟨_, result⟩ | ⟨_, _, result, _⟩
    · rw [result]
    · rw [result] at refused
      contradiction

/-- The second request, once it was handed the cell. -/
theorem completes_exactly_once_handed_over :
    ∃ w, (system ℕ Bool).execute oneCell handOverRun = some w ∧
      w.unlocked.countP (fun get => get.request.id = 1) +
        w.impl.callbacks.contents.countP (fun pending => pending.item.id = 1) +
        w.submitted.countP (fun submission => submission.IsFor 1) +
        w.completed.countP (fun submission => submission.IsFor 1) = 1 ∧
      w.log.countP (fun submission => submission.IsFor 1) =
        w.submitted.countP (fun submission => submission.IsFor 1) +
          w.completed.countP (fun submission => submission.IsFor 1) := by
  have ran : ((system ℕ Bool).execute oneCell handOverRun).isSome := rfl
  have reached :=
    Transition.System.execute_reachable oneCell_initial (Option.some_get ran).symm
  exact ⟨_, (Option.some_get ran).symm,
    (completes_exactly_once reached).1 1 (show 1 < 2 by decide)⟩

end World

end ResourcePool.Async
