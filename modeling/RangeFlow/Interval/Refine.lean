import RangeFlow.Interval.Basic
import RangeFlow.Program.Comparison

/-!
# Narrowing by a comparison

`a.refine c b` keeps the values of `a` for which the comparison `c` with some value of `b` holds.
Unequal values can be told apart by an interval only at an end of `a`.
-/

namespace RangeFlow.Interval

/-- The values of `a` other than `value`, as far as an interval can leave it out. -/
def without (a : Interval) (value : Int) : Interval :=
  match a.bounds? with
  | none => a
  | some (lo, hi) =>
      if lo = value ∧ hi = value then bottom a.bits
      else if lo = value then between a.bits (lo + 1) hi
      else if hi = value then between a.bits lo (hi - 1)
      else a

/-- The values of `a` that compare as `c` with some value of `b`. -/
def refine (a : Interval) (c : Comparison) (b : Interval) : Interval :=
  match a.bounds?, b.bounds? with
  | some _, some (lo, hi) =>
      let least := Width.minValue a.bits
      let greatest := Width.maxValue a.bits
      match c with
      | .eq => a.meet b
      | .ne =>
          match b.value? with
          | some value => a.without value
          | none => a
      | .lt => if hi = least then bottom a.bits else a.meet (between a.bits least (hi - 1))
      | .le => a.meet (between a.bits least hi)
      | .gt => if lo = greatest then bottom a.bits else a.meet (between a.bits (lo + 1) greatest)
      | .ge => a.meet (between a.bits lo greatest)
  | _, _ => bottom a.bits

/-! ## Extent -/

/-- The integers between the bounds, and one more; nothing is left of an empty interval. -/
def extent (i : Interval) : Nat :=
  match i.bounds? with
  | none => 0
  | some (lo, hi) => (hi - lo + 1).toNat + 1

theorem extent_of_bounds {i : Interval} {lo hi : Int} (bounds : i.bounds? = some (lo, hi)) :
    i.extent = (hi - lo + 1).toNat + 1 := by
  simp only [extent, bounds]

/-- What is between two bounds is nothing, or no more than the bounds leave. -/
theorem extent_between (bits : Nat) (lo hi : Int) :
    (between bits lo hi).extent = 0 ∨
      lo ≤ hi ∧ (between bits lo hi).extent ≤ (hi - lo + 1).toNat + 1 := by
  unfold between
  dsimp only
  split
  · exact .inl rfl
  · refine .inr ⟨by omega, ?_⟩
    split
    · rw [extent_of_bounds rfl]
      omega
    · rw [extent_of_bounds rfl]
      omega

/-- Leaving out a value either changes nothing or leaves less. -/
theorem extent_without_lt {i : Interval} {value : Int} (moved : i.without value ≠ i) :
    (i.without value).extent < i.extent := by
  unfold without at moved ⊢
  split
  · rename_i empty
    simp [empty] at moved
  · rename_i lo hi bounds
    rw [extent_of_bounds bounds]
    simp only [bounds] at moved
    have above := extent_between i.bits (lo + 1) hi
    have below := extent_between i.bits lo (hi - 1)
    split
    · exact Nat.succ_pos _
    · split
      · omega
      · split
        · omega
        · simp_all

theorem extent_refine_ne_lt {i b : Interval} {pair : Int × Int} (bounds : i.bounds? = some pair)
    (moved : i.refine .ne b ≠ i) : (i.refine .ne b).extent < i.extent := by
  unfold refine at moved ⊢
  split
  · dsimp only
    split
    · apply extent_without_lt
      simp_all
    · simp_all
  · rw [extent_of_bounds bounds]
    exact Nat.succ_pos _

end RangeFlow.Interval
