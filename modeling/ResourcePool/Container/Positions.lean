import Mathlib.Data.List.Perm.Basic

/-!
# Elements at a position of a list

Parties of a protocol which are waiting or in flight are kept in lists and named by their
positions. These lemmas say what remains of a list, of its counts and of its order, when
elements are taken out or replaced.
-/

namespace Container

universe u

variable {α : Type u} {elements : List α} {index : ℕ} {element : α}

theorem perm_cons_eraseIdx (isElement : elements[index]? = some element) :
    elements.Perm (element :: elements.eraseIdx index) := by
  rcases List.getElem?_eq_some_iff.mp isElement with ⟨inRange, rfl⟩
  exact (List.getElem_cons_eraseIdx_perm inRange).symm

theorem set_perm_cons_eraseIdx (isElement : elements[index]? = some element) (other : α) :
    (elements.set index other).Perm (other :: elements.eraseIdx index) := by
  rcases List.getElem?_eq_some_iff.mp isElement with ⟨inRange, _⟩
  exact List.set_perm_cons_eraseIdx inRange other

theorem mem_eraseIdx_of_ne (isElement : elements[index]? = some element) {other : α}
    (member : other ∈ elements) (different : other ≠ element) :
    other ∈ elements.eraseIdx index := by
  rcases List.mem_cons.mp ((perm_cons_eraseIdx isElement).mem_iff.mp member) with same | rest
  · exact absurd same different
  · exact rest

theorem countP_eraseIdx_add (isElement : elements[index]? = some element) (p : α → Bool) :
    (elements.eraseIdx index).countP p + (if p element then 1 else 0) = elements.countP p := by
  rw [(perm_cons_eraseIdx isElement).countP_eq, List.countP_cons]

theorem countP_set_add (isElement : elements[index]? = some element) (other : α)
    (p : α → Bool) :
    (elements.set index other).countP p + (if p element then 1 else 0) =
      elements.countP p + (if p other then 1 else 0) := by
  have before := countP_eraseIdx_add isElement p
  rw [(set_perm_cons_eraseIdx isElement other).countP_eq, List.countP_cons]
  omega

/-! ### The order of two elements

`[first, second].Sublist elements` says that `first` comes before `second`. -/

end Container
