import ResourcePool.Storage.Validity

/-!
# Systems which act on a storage

A pool changes its storage by the actions of `Storage.system` only, which is what a
simulation of its steps by those of the storage says. Next to a run of the pool one may
then keep the history of its storage, and what `Storage.Tracked` says of the cells holds
at every step of the pool.
-/

namespace ResourcePool.Storage

open Transition

universe u v w

variable {V : Type u} {State : Type v} {Event : Type w} {pool : System State Event}

/-- The runs of a pool together with the history of its storage. -/
def withStorageHistory (simulation : Simulation pool (system V)) :
    System (State × History) Event :=
  pool.withHistory (fun state => History.Begins (simulation.project state))
    (simulation.observe History.record)

/-- Every run of a pool has a history. -/
theorem exists_storageHistory (simulation : Simulation pool (system V))
    {condition : State → Event → Prop} {state : State}
    (reached : pool.ReachableVia condition state) :
    ∃ history, (withStorageHistory simulation).ReachableVia
      (fun pair event => condition pair.1 event) (state, history) := by
  apply reached.exists_history
  intro start isInitial
  rcases simulation.initial start isInitial with ⟨now, constructed⟩
  exact ⟨History.fresh now, now, constructed, rfl⟩

/-- In every run of a pool the marks and times are true to the history. -/
theorem tracked_of_pool {simulation : Simulation pool (system V)} {state : State}
    {history : History} (reached : (withStorageHistory simulation).Reachable (state, history)) :
    (simulation.project state).Tracked history :=
  tracked_of_reachable ((simulation.withHistory History.Begins History.record).reachable reached)

theorem tracked_and_grantsAgree_of_pool {simulation : Simulation pool (system V)}
    {condition : State → Event → Prop}
    (ensures : ∀ state event performed, condition state event →
      simulation.action state event = some performed →
        (simulation.project state).HandsOverUnmarked performed)
    {state : State} {history : History}
    (reached : (withStorageHistory simulation).ReachableVia
      (fun pair event => condition pair.1 event) (state, history)) :
    (simulation.project state).Tracked history ∧
      (simulation.project state).GrantsAgree history :=
  tracked_and_grantsAgree
    ((simulation.withHistory History.Begins History.record).reachableVia
      (fun pair event performed => ensures pair.1 event performed) reached)

theorem perform_of_step (simulation : Simulation pool (system V)) {state successor : State}
    {event : Event} {action : StorageAction V} (stepped : pool.step state event = some successor)
    (acts : simulation.action state event = some action) :
    (simulation.project state).perform action = some (simulation.project successor) :=
  simulation.acts state event successor action stepped acts

end ResourcePool.Storage
