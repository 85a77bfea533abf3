import Std.Data.ExtTreeMap
import Std.Data.ExtTreeSet

/-!
# Orders

Maps and sets are kept in sorted order and compare by contents, so the keys need lawful orders.
This module supplies the two that the library lacks: records compared field by field, and sets
compared as the sorted lists of their elements.
-/

namespace RangeFlow

/-- Comparing two projections in turn is lawful when together they determine the value. -/
theorem lawfulEqCmp_compareLex {α β γ : Type} [Ord β] [Ord γ] [Std.LawfulEqOrd β]
    [Std.LawfulEqOrd γ] {f : α → β} {g : α → γ}
    (inj : ∀ a b, f a = f b → g a = g b → a = b) :
    Std.LawfulEqCmp (compareLex (compareOn f) (compareOn g)) where
  compare_self {a} := by simp [compareLex, compareOn, Std.ReflOrd.compare_self]
  eq_of_compare {a b} h := by
    simp only [compareLex, compareOn, Ordering.then_eq_eq] at h
    exact inj a b (Std.LawfulEqOrd.eq_of_compare h.1) (Std.LawfulEqOrd.eq_of_compare h.2)

section Sets

variable {α : Type} [Ord α] [Std.TransOrd α]

/-- Sets compare as the sorted lists of their elements. -/
instance ordSet : Ord (Std.ExtTreeSet α) where
  compare s t := compare s.toList t.toList

instance transOrdSet : Std.TransOrd (Std.ExtTreeSet α) where
  eq_swap {s t} := @Std.OrientedOrd.eq_swap (List α) _ _ s.toList t.toList
  isLE_trans {s t u} := @Std.TransOrd.isLE_trans (List α) _ _ s.toList t.toList u.toList

instance lawfulEqOrdSet [Std.LawfulEqOrd α] : Std.LawfulEqOrd (Std.ExtTreeSet α) where
  compare_self {s} := @Std.ReflOrd.compare_self (List α) _ _ s.toList
  eq_of_compare h := Std.ExtTreeSet.toList_inj.1 (Std.LawfulEqOrd.eq_of_compare h)

end Sets

/-- An ordered pair of vertices. -/
structure Link where
  head : Nat
  tail : Nat
deriving DecidableEq, Inhabited

/-- Links compare by head, then by tail. -/
instance : Ord Link where
  compare := compareLex (compareOn Link.head) (compareOn Link.tail)

instance : Std.TransOrd Link :=
  inferInstanceAs (Std.TransCmp (compareLex (compareOn Link.head) (compareOn Link.tail)))

instance : Std.LawfulEqOrd Link :=
  lawfulEqCmp_compareLex fun a b h₁ h₂ => by cases a; cases b; simp_all

end RangeFlow
