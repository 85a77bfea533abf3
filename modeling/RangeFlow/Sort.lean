/-!
# Sorting

Insertion into a sorted list, in front of the elements that do not come before the new one, so that
sorting keeps the order of equal elements.
-/

namespace RangeFlow

variable {α : Type}

/-- Puts an element in front of the first one that it may precede. -/
def insertSorted (le : α → α → Bool) (a : α) : List α → List α
  | [] => [a]
  | b :: rest => if le a b then a :: b :: rest else b :: insertSorted le a rest

/-- Sorts a list. Elements that may precede each other keep their order. -/
def sortStable (le : α → α → Bool) (items : List α) : List α := items.foldr (insertSorted le) []

end RangeFlow
