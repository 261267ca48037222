import Mathlib.Data.List.Nodup
import Mathlib.Data.List.Perm.Basic
import Mathlib.Data.List.TakeWhile
import Mathlib.Order.Lattice

/-!
# Ordered multimaps with stable iterators

A `Multimap` keeps its elements in the order of their keys, equal keys in the order of
their insertion, as `std::multimap` does. An iterator stays valid until its element is
erased, whatever else is inserted or erased, so each element carries an identity which
its iterator denotes. Identities are given out once.
-/

namespace Container

universe u v

/-- The identity of an element of a multimap, which an iterator to it denotes. -/
abbrev EntryId := ℕ

structure Entry (Key : Type u) (Value : Type v) where
  id : EntryId
  key : Key
  value : Value
  deriving DecidableEq

/-- The elements of a multimap in the order of their keys. -/
structure Multimap (Key : Type u) (Value : Type v) [LinearOrder Key] where
  entries : List (Entry Key Value)
  nextId : EntryId
  sorted : entries.Pairwise fun earlier later => earlier.key ≤ later.key
  distinct : (entries.map Entry.id).Nodup
  fresh : ∀ entry ∈ entries, entry.id < nextId

namespace Multimap

variable {Key : Type u} {Value : Type v} [LinearOrder Key]

def empty : Multimap Key Value := ⟨[], 0, by simp, by simp, by simp⟩

def size (m : Multimap Key Value) : ℕ := m.entries.length

/-- The elements in front of `upper_bound(bound)`. -/
def upTo (m : Multimap Key Value) (bound : Key) : List (Entry Key Value) :=
  m.entries.takeWhile fun entry => entry.key ≤ bound

/-- The elements from `upper_bound(bound)` on. -/
def above (m : Multimap Key Value) (bound : Key) : List (Entry Key Value) :=
  m.entries.dropWhile fun entry => entry.key ≤ bound

theorem upTo_append_above (m : Multimap Key Value) (bound : Key) :
    m.upTo bound ++ m.above bound = m.entries :=
  List.takeWhile_append_dropWhile

theorem key_le_of_mem_upTo {m : Multimap Key Value} {bound : Key} {entry : Entry Key Value}
    (member : entry ∈ m.upTo bound) : entry.key ≤ bound := by
  simpa using List.mem_takeWhile_imp member

theorem lt_key_of_mem_above {m : Multimap Key Value} {bound : Key} {entry : Entry Key Value}
    (member : entry ∈ m.above bound) : bound < entry.key := by
  have sorted := m.sorted
  rw [← m.upTo_append_above bound, List.pairwise_append] at sorted
  have first := List.head?_dropWhile_not
    (fun entry : Entry Key Value => decide (entry.key ≤ bound)) m.entries
  cases split : m.above bound with
  | nil => simp [split] at member
  | cons head tail =>
      rw [above] at split
      rw [split] at first
      have aboveBound : bound < head.key := by simpa using first
      rw [above, split] at member sorted
      rcases List.mem_cons.mp member with rfl | later
      · exact aboveBound
      · exact lt_of_lt_of_le aboveBound ((List.pairwise_cons.mp sorted.2.1).1 entry later)

theorem mem_upTo {m : Multimap Key Value} {bound : Key} {entry : Entry Key Value} :
    entry ∈ m.upTo bound ↔ entry ∈ m.entries ∧ entry.key ≤ bound := by
  constructor
  · intro member
    exact ⟨(List.takeWhile_prefix _).subset member, key_le_of_mem_upTo member⟩
  · rintro ⟨member, reached⟩
    rw [← m.upTo_append_above bound, List.mem_append] at member
    rcases member with before | after
    · exact before
    · exact absurd reached (not_le_of_gt (lt_key_of_mem_above after))

theorem mem_above {m : Multimap Key Value} {bound : Key} {entry : Entry Key Value} :
    entry ∈ m.above bound ↔ entry ∈ m.entries ∧ bound < entry.key := by
  constructor
  · intro member
    exact ⟨(List.dropWhile_suffix _).subset member, lt_key_of_mem_above member⟩
  · rintro ⟨member, notReached⟩
    rw [← m.upTo_append_above bound, List.mem_append] at member
    rcases member with before | after
    · exact absurd (key_le_of_mem_upTo before) (not_le_of_gt notReached)
    · exact after

/-- `insert`: the new element comes behind those with the same key. -/
def insert (m : Multimap Key Value) (key : Key) (value : Value) : Multimap Key Value where
  entries := m.upTo key ++ ⟨m.nextId, key, value⟩ :: m.above key
  nextId := m.nextId + 1
  sorted := by
    have sorted := m.sorted
    rw [← m.upTo_append_above key, List.pairwise_append] at sorted
    rw [List.pairwise_append, List.pairwise_cons]
    refine ⟨sorted.1, ⟨?_, sorted.2.1⟩, ?_⟩
    · intro later member
      exact le_of_lt (lt_key_of_mem_above member)
    · intro earlier before later after
      rcases List.mem_cons.mp after with rfl | member
      · exact key_le_of_mem_upTo before
      · exact sorted.2.2 earlier before later member
  distinct := by
    have distinct := m.distinct
    rw [← m.upTo_append_above key, List.map_append] at distinct
    rw [List.map_append, List.map_cons, List.perm_middle.nodup_iff, List.nodup_cons]
    refine ⟨?_, distinct⟩
    rw [← List.map_append, m.upTo_append_above key]
    intro member
    rcases List.mem_map.mp member with ⟨entry, isEntry, equal⟩
    exact absurd equal (m.fresh entry isEntry).ne
  fresh := by
    intro entry member
    have cases : entry = ⟨m.nextId, key, value⟩ ∨ entry ∈ m.entries := by
      rw [← m.upTo_append_above key]
      simp only [List.mem_append, List.mem_cons] at member ⊢
      tauto
    rcases cases with rfl | older
    · exact Nat.lt_succ_self _
    · exact Nat.lt_succ_of_lt (m.fresh entry older)

/-- A multimap from which only some elements are kept. -/
def keep (m : Multimap Key Value) (entries : List (Entry Key Value))
    (sublist : entries.Sublist m.entries) : Multimap Key Value where
  entries := entries
  nextId := m.nextId
  sorted := m.sorted.sublist sublist
  distinct := m.distinct.sublist (sublist.map _)
  fresh entry member := m.fresh entry (sublist.subset member)

/-- `erase(it)`. -/
def erase (m : Multimap Key Value) (it : EntryId) : Multimap Key Value :=
  m.keep (m.entries.eraseP fun entry => entry.id = it) List.eraseP_sublist

/-- `erase(begin(), upper_bound(bound))`. -/
def eraseUpTo (m : Multimap Key Value) (bound : Key) : Multimap Key Value :=
  m.keep (m.above bound) (List.dropWhile_sublist _)

/-- The element which an iterator denotes. -/
def find? (m : Multimap Key Value) (it : EntryId) : Option (Entry Key Value) :=
  m.entries.find? fun entry => entry.id = it

theorem entries_insert_perm (m : Multimap Key Value) (key : Key) (value : Value) :
    (m.insert key value).entries.Perm (⟨m.nextId, key, value⟩ :: m.entries) := by
  apply List.perm_middle.trans
  rw [m.upTo_append_above key]

theorem mem_insert {m : Multimap Key Value} {key : Key} {value : Value}
    {entry : Entry Key Value} :
    entry ∈ (m.insert key value).entries ↔
      entry = ⟨m.nextId, key, value⟩ ∨ entry ∈ m.entries := by
  rw [(m.entries_insert_perm key value).mem_iff, List.mem_cons]

theorem eq_of_id_eq {m : Multimap Key Value} {first second : Entry Key Value}
    (isFirst : first ∈ m.entries) (isSecond : second ∈ m.entries) (same : first.id = second.id) :
    first = second :=
  List.inj_on_of_nodup_map m.distinct isFirst isSecond same

theorem find?_eq_some_iff {m : Multimap Key Value} {it : EntryId} {entry : Entry Key Value} :
    m.find? it = some entry ↔ entry ∈ m.entries ∧ entry.id = it := by
  constructor
  · intro found
    exact ⟨List.mem_of_find?_eq_some found, by simpa using List.find?_some found⟩
  · rintro ⟨member, rfl⟩
    cases found : m.find? entry.id with
    | none =>
        have missing := List.find?_eq_none.mp found entry member
        simp at missing
    | some other =>
        have isOther := List.mem_of_find?_eq_some found
        have same : other.id = entry.id := by simpa using List.find?_some found
        rw [eq_of_id_eq isOther member same]

theorem perm_cons_erase {m : Multimap Key Value} {entry : Entry Key Value}
    (member : entry ∈ m.entries) : m.entries.Perm (entry :: (m.erase entry.id).entries) := by
  rcases List.exists_of_eraseP member (p := fun other => other.id = entry.id) (by simp) with
    ⟨other, before, after, _, same, split, erased⟩
  have equal : other = entry := by
    apply eq_of_id_eq ?_ member (by simpa using same)
    rw [split]
    simp
  subst equal
  change m.entries.Perm (other :: m.entries.eraseP fun entry => entry.id = other.id)
  rw [erased, split]
  exact List.perm_middle

theorem mem_erase {m : Multimap Key Value} {removed entry : Entry Key Value}
    (member : removed ∈ m.entries) :
    entry ∈ (m.erase removed.id).entries ↔ entry ∈ m.entries ∧ entry ≠ removed := by
  have perm := perm_cons_erase member
  have distinct : (removed :: (m.erase removed.id).entries).Nodup :=
    perm.nodup_iff.mp m.distinct.of_map
  rw [perm.mem_iff, List.mem_cons]
  constructor
  · intro kept
    refine ⟨Or.inr kept, ?_⟩
    rintro rfl
    exact (List.nodup_cons.mp distinct).1 kept
  · rintro ⟨isEntry, different⟩
    exact isEntry.resolve_left different

theorem key_first_le {m : Multimap Key Value} {first : Entry Key Value}
    {rest : List (Entry Key Value)} (split : m.entries = first :: rest)
    {entry : Entry Key Value} (member : entry ∈ m.entries) : first.key ≤ entry.key := by
  have sorted := m.sorted
  rw [split] at sorted member
  rcases List.mem_cons.mp member with rfl | later
  · exact le_refl _
  · exact (List.pairwise_cons.mp sorted).1 entry later

end Multimap

end Container
