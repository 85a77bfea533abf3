import RangeFlow.Interval.Arithmetic
import RangeFlow.Proofs.Interval.Contents

/-!
# Arithmetic on what intervals hold

The exact bounds of sums, differences, products, quotients and remainders enclose the exact results,
so the interval of an operator holds what they wrap to. The corners of a box enclose every function
that is enclosed by its ends in each argument (`corners_enclose`), which covers products and
quotients alike.
-/

namespace RangeFlow.Interval

open Width (Holds)

/-! ## Lifting exact bounds -/

theorem contains_lift {f : Int × Int → Int × Int} {a : Interval} {x z : Int}
    (valid : Width.isValid a.bits) (hx : a.contains x)
    (enclosed : ∀ lo hi, lo ≤ x → x ≤ hi → (f (lo, hi)).1 ≤ z ∧ z ≤ (f (lo, hi)).2) :
    (lift f a).contains (Width.wrap z a.bits) := by
  obtain ⟨lo, hi, bounds, lower, upper⟩ := contains_iff.1 hx
  have := enclosed lo hi lower upper
  rw [lift, bounds]
  exact contains_ofExact valid this.1 this.2

theorem contains_lift₂ {f : Int × Int → Int × Int → Int × Int} {a b : Interval} {x y z : Int}
    (valid : Width.isValid a.bits) (hx : a.contains x) (hy : b.contains y)
    (enclosed : ∀ alo ahi blo bhi, alo ≤ x → x ≤ ahi → blo ≤ y → y ≤ bhi →
      (f (alo, ahi) (blo, bhi)).1 ≤ z ∧ z ≤ (f (alo, ahi) (blo, bhi)).2) :
    (lift₂ f a b).contains (Width.wrap z a.bits) := by
  obtain ⟨alo, ahi, abounds, alower, aupper⟩ := contains_iff.1 hx
  obtain ⟨blo, bhi, bbounds, blower, bupper⟩ := contains_iff.1 hy
  have := enclosed alo ahi blo bhi alower aupper blower bupper
  rw [lift₂, abounds, bbounds]
  exact contains_ofExact valid this.1 this.2

/-! ## Sums and complements -/

theorem contains_add {a b : Interval} {x y : Int} (valid : Width.isValid a.bits)
    (hx : a.contains x) (hy : b.contains y) :
    (a.add b).contains (Width.wrap (x + y) a.bits) := by
  refine contains_lift₂ valid hx hy fun alo ahi blo bhi _ _ _ _ => ?_
  simp only [sumBounds]
  omega

theorem contains_sub {a b : Interval} {x y : Int} (valid : Width.isValid a.bits)
    (hx : a.contains x) (hy : b.contains y) :
    (a.sub b).contains (Width.wrap (x - y) a.bits) := by
  refine contains_lift₂ valid hx hy fun alo ahi blo bhi _ _ _ _ => ?_
  simp only [differenceBounds]
  omega

theorem contains_neg {a : Interval} {x : Int} (valid : Width.isValid a.bits)
    (hx : a.contains x) : a.neg.contains (Width.wrap (-x) a.bits) := by
  refine contains_lift valid hx fun lo hi _ _ => ?_
  simp only [negatedBounds]
  omega

theorem contains_not {a : Interval} {x : Int} (valid : Width.isValid a.bits)
    (hx : a.contains x) : a.not.contains (Width.wrap (-x - 1) a.bits) := by
  refine contains_lift valid hx fun lo hi _ _ => ?_
  simp only [complementBounds]
  omega

theorem contains_cast {a : Interval} {x : Int} {bits : Nat} (valid : Width.isValid bits)
    (hx : a.contains x) : (a.cast bits).contains (Width.wrap x bits) := by
  obtain ⟨lo, hi, bounds, lower, upper⟩ := contains_iff.1 hx
  rw [cast, bounds]
  exact contains_ofExact valid lower upper

/-! ## Corners -/

theorem hull_fst_le {corners : List Int} {c : Int} (h : c ∈ corners) : (hull corners).1 ≤ c := by
  cases least : corners.min? with
  | none => simp_all [List.min?_eq_none_iff]
  | some m =>
    rw [hull, least]
    exact (List.min?_eq_some_iff.1 least).2 c h

theorem le_hull_snd {corners : List Int} {c : Int} (h : c ∈ corners) : c ≤ (hull corners).2 := by
  cases greatest : corners.max? with
  | none => simp_all [List.max?_eq_none_iff]
  | some m =>
    rw [hull, greatest]
    exact (List.max?_eq_some_iff.1 greatest).2 c h

theorem hull_mem {corners : List Int} (full : corners ≠ []) :
    (hull corners).1 ∈ corners ∧ (hull corners).2 ∈ corners := by
  constructor
  · cases least : corners.min? with
    | none => exact absurd (List.min?_eq_none_iff.1 least) full
    | some m =>
      rw [hull, least]
      exact (List.min?_eq_some_iff.1 least).1
  · cases greatest : corners.max? with
    | none => exact absurd (List.max?_eq_none_iff.1 greatest) full
    | some m =>
      rw [hull, greatest]
      exact (List.max?_eq_some_iff.1 greatest).1

/-- `z` lies between `a` and `b`, whichever of them is the smaller. -/
def Enclosed (z a b : Int) : Prop := min a b ≤ z ∧ z ≤ max a b

theorem Enclosed.of_le {z a b : Int} (h : a ≤ z ∧ z ≤ b ∨ b ≤ z ∧ z ≤ a) : Enclosed z a b := by
  unfold Enclosed
  omega

/-- A function of two arguments that its ends enclose in each of them is enclosed by its corners. -/
theorem corners_enclose {f : Int → Int → Int} {alo ahi blo bhi x y : Int}
    (first : Enclosed (f x y) (f alo y) (f ahi y))
    (second : ∀ a, Enclosed (f a y) (f a blo) (f a bhi)) {corners : List Int}
    (all : ∀ c ∈ [f alo blo, f alo bhi, f ahi blo, f ahi bhi], c ∈ corners) :
    (hull corners).1 ≤ f x y ∧ f x y ≤ (hull corners).2 := by
  have c₁ := all (f alo blo) (by simp)
  have c₂ := all (f alo bhi) (by simp)
  have c₃ := all (f ahi blo) (by simp)
  have c₄ := all (f ahi bhi) (by simp)
  have lower := second alo
  have upper := second ahi
  unfold Enclosed at first lower upper
  constructor
  · have := hull_fst_le c₁
    have := hull_fst_le c₂
    have := hull_fst_le c₃
    have := hull_fst_le c₄
    omega
  · have := le_hull_snd c₁
    have := le_hull_snd c₂
    have := le_hull_snd c₃
    have := le_hull_snd c₄
    omega

theorem enclosed_mul_left {lo hi x : Int} (y : Int) (lower : lo ≤ x) (upper : x ≤ hi) :
    Enclosed (x * y) (lo * y) (hi * y) := by
  apply Enclosed.of_le
  rcases le_total 0 y with nonneg | nonpos
  · exact .inl ⟨mul_le_mul_of_nonneg_right lower nonneg, mul_le_mul_of_nonneg_right upper nonneg⟩
  · exact .inr ⟨mul_le_mul_of_nonpos_right upper nonpos, mul_le_mul_of_nonpos_right lower nonpos⟩

theorem enclosed_mul_right {lo hi y : Int} (x : Int) (lower : lo ≤ y) (upper : y ≤ hi) :
    Enclosed (x * y) (x * lo) (x * hi) := by
  simpa only [mul_comm x] using enclosed_mul_left x lower upper

theorem productBounds_enclose {p q : Int × Int} {x y : Int} (alower : p.1 ≤ x) (aupper : x ≤ p.2)
    (blower : q.1 ≤ y) (bupper : y ≤ q.2) :
    (productBounds p q).1 ≤ x * y ∧ x * y ≤ (productBounds p q).2 :=
  corners_enclose (f := (· * ·)) (enclosed_mul_left y alower aupper)
    (fun a => enclosed_mul_right a blower bupper) fun _ hc => hc

theorem contains_mul {a b : Interval} {x y : Int} (valid : Width.isValid a.bits)
    (hx : a.contains x) (hy : b.contains y) :
    (a.mul b).contains (Width.wrap (x * y) a.bits) :=
  contains_lift₂ valid hx hy fun _ _ _ _ alower aupper blower bupper =>
    productBounds_enclose alower aupper blower bupper

/-! ## Quotients and remainders -/

/-- A nonzero value of a range lies in one of the two parts, on one side of zero. -/
theorem mem_nonzeroParts {lo hi y : Int} (lower : lo ≤ y) (upper : y ≤ hi) (nonzero : y ≠ 0) :
    ∃ dlo dhi, (dlo, dhi) ∈ nonzeroParts (lo, hi) ∧ dlo ≤ y ∧ y ≤ dhi ∧ (dhi < 0 ∨ 0 < dlo) := by
  rcases lt_or_gt_of_ne nonzero with negative | positive
  · refine ⟨lo, min hi (-1), ?_, lower, by omega, .inl (by omega)⟩
    rw [nonzeroParts, if_pos (by omega)]
    simp
  · refine ⟨max lo 1, hi, ?_, by omega, upper, .inr (by omega)⟩
    simp only [nonzeroParts, if_pos (show 1 ≤ hi by omega)]
    simp

theorem contains_liftNonzero {f : Int × Int → List (Int × Int) → Int × Int} {a b : Interval}
    {x y z : Int} (valid : Width.isValid a.bits) (hx : a.contains x) (hy : b.contains y)
    (nonzero : y ≠ 0)
    (enclosed : ∀ alo ahi dlo dhi parts, alo ≤ x → x ≤ ahi → (dlo, dhi) ∈ parts → dlo ≤ y →
      y ≤ dhi → (dhi < 0 ∨ 0 < dlo) → (f (alo, ahi) parts).1 ≤ z ∧ z ≤ (f (alo, ahi) parts).2) :
    (liftNonzero f a b).contains (Width.wrap z a.bits) := by
  obtain ⟨alo, ahi, abounds, alower, aupper⟩ := contains_iff.1 hx
  obtain ⟨blo, bhi, bbounds, blower, bupper⟩ := contains_iff.1 hy
  obtain ⟨dlo, dhi, mem, dlower, dupper, side⟩ := mem_nonzeroParts blower bupper nonzero
  have := enclosed alo ahi dlo dhi _ alower aupper mem dlower dupper side
  rw [liftNonzero, abounds, bbounds]
  dsimp only
  split
  · rename_i empty
    simp [empty] at mem
  · exact contains_ofExact valid this.1 this.2

theorem enclosed_tdiv_left {lo hi x : Int} (y : Int) (lower : lo ≤ x) (upper : x ≤ hi) :
    Enclosed (x.tdiv y) (lo.tdiv y) (hi.tdiv y) := by
  apply Enclosed.of_le
  rcases lt_trichotomy y 0 with negative | rfl | positive
  · have below := Int.tdiv_le_tdiv (Int.neg_pos_of_neg negative) lower
    have above := Int.tdiv_le_tdiv (Int.neg_pos_of_neg negative) upper
    simp only [Int.tdiv_neg] at below above
    omega
  · simp
  · exact .inl ⟨Int.tdiv_le_tdiv positive lower, Int.tdiv_le_tdiv positive upper⟩

/-- A quotient of a dividend that is not negative shrinks as the divisor grows. -/
theorem tdiv_le_tdiv_of_le {x y z : Int} (nonneg : 0 ≤ x) (positive : 0 < y) (h : y ≤ z) :
    x.tdiv z ≤ x.tdiv y := by
  rw [Int.tdiv_eq_ediv_of_nonneg nonneg, Int.tdiv_eq_ediv_of_nonneg nonneg]
  rw [Int.le_ediv_iff_mul_le positive]
  have quotient : 0 ≤ x / z := Int.ediv_nonneg nonneg (by omega)
  calc x / z * y ≤ x / z * z := mul_le_mul_of_nonneg_left h quotient
    _ ≤ x := Int.ediv_mul_le x (by omega)

theorem enclosed_tdiv_of_pos {lo hi y : Int} (x : Int) (positive : 0 < lo) (lower : lo ≤ y)
    (upper : y ≤ hi) : Enclosed (x.tdiv y) (x.tdiv lo) (x.tdiv hi) := by
  apply Enclosed.of_le
  rcases le_total 0 x with nonneg | nonpos
  · exact .inr ⟨tdiv_le_tdiv_of_le nonneg (by omega) upper,
      tdiv_le_tdiv_of_le nonneg positive lower⟩
  · have above := tdiv_le_tdiv_of_le (Int.neg_nonneg_of_nonpos nonpos) (by omega) upper
    have below := tdiv_le_tdiv_of_le (Int.neg_nonneg_of_nonpos nonpos) positive lower
    simp only [Int.neg_tdiv] at above below
    omega

theorem enclosed_tdiv_right {lo hi y : Int} (x : Int) (lower : lo ≤ y) (upper : y ≤ hi)
    (side : hi < 0 ∨ 0 < lo) : Enclosed (x.tdiv y) (x.tdiv lo) (x.tdiv hi) := by
  rcases side with negative | positive
  · have := @enclosed_tdiv_of_pos (-hi) (-lo) (-y) x (by omega) (by omega)
      (by omega)
    simp only [Int.tdiv_neg, Enclosed] at this ⊢
    omega
  · exact enclosed_tdiv_of_pos x positive lower upper

theorem quotientBounds_enclose {p : Int × Int} {parts : List (Int × Int)} {dlo dhi x y : Int}
    (alower : p.1 ≤ x) (aupper : x ≤ p.2) (mem : (dlo, dhi) ∈ parts) (dlower : dlo ≤ y)
    (dupper : y ≤ dhi) (side : dhi < 0 ∨ 0 < dlo) :
    (quotientBounds p parts).1 ≤ x.tdiv y ∧ x.tdiv y ≤ (quotientBounds p parts).2 :=
  corners_enclose (f := Int.tdiv) (enclosed_tdiv_left y alower aupper)
    (fun a => enclosed_tdiv_right a dlower dupper side)
    fun _ hc => List.mem_flatMap.2 ⟨(dlo, dhi), mem, hc⟩

theorem contains_div {a b : Interval} {x y : Int} (valid : Width.isValid a.bits)
    (hx : a.contains x) (hy : b.contains y) (nonzero : y ≠ 0) :
    (a.div b).contains (Width.wrap (x.tdiv y) a.bits) :=
  contains_liftNonzero valid hx hy nonzero
    fun _ _ _ _ _ alower aupper mem dlower dupper side =>
      quotientBounds_enclose alower aupper mem dlower dupper side

theorem natAbs_le_magnitude {parts : List (Int × Int)} {dlo dhi y : Int}
    (mem : (dlo, dhi) ∈ parts) (lower : dlo ≤ y) (upper : y ≤ dhi) :
    (y.natAbs : Int) ≤ magnitude parts := by
  have mem' := List.mem_map_of_mem
    (f := fun p : Int × Int => max (Int.ofNat p.1.natAbs) (Int.ofNat p.2.natAbs)) mem
  unfold magnitude
  cases greatest :
      (parts.map fun p : Int × Int => max (Int.ofNat p.1.natAbs) (Int.ofNat p.2.natAbs)).max? with
  | none =>
    rw [List.max?_eq_none_iff] at greatest
    rw [greatest] at mem'
    exact absurd mem' (List.not_mem_nil)
  | some m =>
    have := (List.max?_eq_some_iff.1 greatest).2 _ mem'
    simp only [Int.ofNat_eq_natCast, Option.getD_some] at this ⊢
    omega

/-- A truncated remainder has the sign of the dividend, is not larger than it, and is smaller than
the divisor. -/
theorem tmod_bounds (x : Int) {y : Int} (nonzero : y ≠ 0) :
    (0 ≤ x → 0 ≤ x.tmod y ∧ x.tmod y ≤ x) ∧ (x ≤ 0 → x ≤ x.tmod y ∧ x.tmod y ≤ 0) ∧
      (x.tmod y).natAbs < y.natAbs := by
  have size : (x.tmod y).natAbs = x.natAbs % y.natAbs := Int.natAbs_tmod x y
  have small : x.natAbs % y.natAbs < y.natAbs := Nat.mod_lt _ (by omega)
  have below : x.natAbs % y.natAbs ≤ x.natAbs := Nat.mod_le _ _
  refine ⟨fun nonneg => ?_, fun nonpos => ?_, by omega⟩
  · have sign := Int.tmod_nonneg y nonneg
    omega
  · have sign := Int.tmod_nonneg y (Int.neg_nonneg_of_nonpos nonpos)
    rw [Int.neg_tmod] at sign
    omega

theorem contains_rem {a b : Interval} {x y : Int} (valid : Width.isValid a.bits)
    (hx : a.contains x) (hy : b.contains y) (nonzero : y ≠ 0) :
    (a.rem b).contains (Width.wrap (x.tmod y) a.bits) := by
  refine contains_liftNonzero valid hx hy nonzero
    fun alo ahi dlo dhi parts alower aupper mem dlower dupper _ => ?_
  have largest := natAbs_le_magnitude mem dlower dupper
  obtain ⟨nonneg, nonpos, small⟩ := tmod_bounds x nonzero
  unfold remainderBounds
  dsimp only
  rcases le_total 0 x with sign | sign
  · have := nonneg sign
    constructor <;> split_ifs <;> omega
  · have := nonpos sign
    constructor <;> split_ifs <;> omega

end RangeFlow.Interval
