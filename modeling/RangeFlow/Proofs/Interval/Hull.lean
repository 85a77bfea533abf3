import RangeFlow.Proofs.Interval.Trimming

/-!
# The smallest interval of some integers

`Interval.IsHull` says that an interval is the smallest one of its width that holds some integers, and
`Interval.IsHullOf` names the width. An interval is that if it holds them and if each of its bounds is
one of them; it is enough that it lies in an interval whose bounds are (`IsHull.of_endsIn`).

The bounds of `refine` compare with some value of the other interval (`endsIn_refine`), those of
`trim` are outside the set that is left out (`endsIn_trim`), and those of a case are values of the case
(`endsIn_meet_between`).
-/

namespace RangeFlow.Interval

/-- The smallest interval of a width that holds some integers. -/
structure IsHull (i : Interval) (values : Set Int) : Prop where
  canonical : i.Canonical
  covers : ∀ x ∈ values, i.contains x
  least : ∀ j : Interval, j.bits = i.bits → (∀ x ∈ values, j.contains x) → i.isSubset j

/-- The bounds of an interval are among some integers. -/
def EndsIn (i : Interval) (values : Set Int) : Prop :=
  ∀ lo hi, i.bounds? = some (lo, hi) → lo ∈ values ∧ hi ∈ values

variable {a b i : Interval} {values more : Set Int}

theorem EndsIn.mono (h : i.EndsIn values) (larger : values ⊆ more) : i.EndsIn more :=
  fun lo hi bounds => ⟨larger (h lo hi bounds).1, larger (h lo hi bounds).2⟩

/-- The bounds of a normal interval are values of it. -/
theorem Normal.endsIn (h : i.Normal) : i.EndsIn {x | i.contains x} := by
  intro lo hi bounds
  have ordered := (h.bounds bounds).2.1
  exact ⟨contains_iff.2 ⟨_, _, bounds, le_rfl, ordered⟩,
    contains_iff.2 ⟨_, _, bounds, ordered, le_rfl⟩⟩

theorem IsHull.of_endsIn (canonical : i.Canonical) (covers : ∀ x ∈ values, i.contains x)
    (below : i.isSubset a) (ends : a.EndsIn values) : i.IsHull values where
  canonical := canonical
  covers := covers
  least j width holds := by
    refine isSubset_trans below (isSubset_iff.2
      ⟨(bits_eq_of_isSubset below).symm.trans width.symm, fun lo hi bounds => ?_⟩)
    obtain ⟨first, last⟩ := ends lo hi bounds
    obtain ⟨lo', hi', bounds', lower, -⟩ := contains_iff.1 (holds lo first)
    obtain ⟨_, _, same, -, upper⟩ := contains_iff.1 (holds hi last)
    cases bounds'.symm.trans same
    exact ⟨lo', hi', bounds', lower, upper⟩

theorem IsHull.congr (h : i.IsHull values) (same : ∀ x, x ∈ values ↔ x ∈ more) : i.IsHull more :=
  Set.ext same ▸ h

theorem isHull_between {bits : Nat} (valid : Width.isValid bits) {lo hi : Int} (first : lo ∈ values)
    (last : hi ∈ values) (held : ∀ x ∈ values, Width.Holds bits x)
    (enclosed : ∀ x ∈ values, lo ≤ x ∧ x ≤ hi) : (between bits lo hi).IsHull values := by
  refine .of_endsIn (canonical_between valid lo hi) (fun x hx => ?_) (isSubset_refl _)
    fun lo' hi' bounds => ?_
  · exact contains_between.2 ⟨(enclosed x hx).1, (enclosed x hx).2, held x hx⟩
  · rw [bounds?_between (held lo first).1 (held hi last).2 (enclosed lo first).2] at bounds
    cases bounds
    exact ⟨first, last⟩

/-- The smallest interval of `bits` bits that holds some integers. -/
def IsHullOf (i : Interval) (bits : Nat) (values : Set Int) : Prop :=
  i.bits = bits ∧ i.IsHull values

/-! ## Narrowing -/

theorem endsIn_without (ha : a.Canonical) (value : Int) :
    (a.without value).EndsIn {x | a.contains x ∧ x ≠ value} := by
  intro lo hi bounds
  obtain ⟨first, last⟩ := (canonical_without ha value).normal.endsIn lo hi bounds
  obtain ⟨_, _, before, -⟩ := contains_iff.1 (contains_of_contains_without first)
  obtain ⟨⟨lower, -⟩, upper, -⟩ := bounds_without ha before bounds
  exact ⟨⟨contains_of_contains_without first, lower⟩, contains_of_contains_without last, upper⟩

/-- The bounds of a narrowed interval compare with some value of the other. -/
theorem endsIn_refine (ha : a.Canonical) (hb : b.Canonical) (same : a.bits = b.bits)
    (c : Comparison) :
    (a.refine c b).EndsIn {x | a.contains x ∧ ∃ y, b.contains y ∧ c.holds x y} := by
  by_cases apart : c = .ne
  · subst apart
    unfold refine
    split
    · rename_i lo hi _ bounds
      have full : b.isBottom = false := by
        rw [Bool.eq_false_iff, ne_eq, ← bounds?_eq_none_iff, bounds]
        exact Option.some_ne_none _
      dsimp only
      split
      · rename_i value single
        refine (endsIn_without ha value).mono ?_
        rintro x ⟨hx, other⟩
        exact ⟨hx, value, contains_of_value?_eq_some single, by simp [Comparison.holds, other]⟩
      · rename_i several
        refine ha.normal.endsIn.mono fun x hx => ⟨hx, ?_⟩
        obtain ⟨y, hy, other⟩ := exists_ne_of_value?_eq_none hb full several x
        exact ⟨y, hy, by simp [Comparison.holds, other.symm]⟩
    · intro lo hi bounds
      cases bounds
  · exact (normal_refine ha.normal c b).endsIn.mono fun x hx =>
      exists_holds_of_contains_refine hb.normal same apart hx

/-- Narrowing the other side by what is left of the first one asks for no less. -/
theorem endsIn_refine_swap (ha : a.Canonical) (hb : b.Canonical) (same : a.bits = b.bits)
    (c : Comparison) : (b.refine c.swap (a.refine c b)).EndsIn
      {y | b.contains y ∧ ∃ x, a.contains x ∧ c.holds x y} := by
  refine (endsIn_refine hb (canonical_refine ha c b) (by rw [bits_refine, same]) _).mono ?_
  rintro y ⟨hy, x, hx, holds⟩
  rw [Comparison.holds_swap] at holds
  exact ⟨hy, x, contains_of_isSubset (refine_isSubset ha.normal c b) hx, holds⟩

/-- The bounds of what lies between two values of an interval are these values. -/
theorem endsIn_meet_between (ha : a.Normal) {lo hi : Int} (lowest : a.contains lo)
    (highest : a.contains hi) : (a.meet (between a.bits lo hi)).EndsIn {lo, hi} := by
  intro lo' hi' bounds
  have mem_iff (x : Int) : (a.meet (between a.bits lo hi)).contains x = true ↔
      a.contains x ∧ lo ≤ x ∧ x ≤ hi := by
    rw [contains_meet_iff (by simp), contains_between]
    exact ⟨fun h => ⟨h.1, h.2.1.1, h.2.1.2.1⟩,
      fun h => ⟨h.1, ⟨h.2.1, h.2.2, ha.holds h.1⟩, ha.holds h.1⟩⟩
  obtain ⟨first, last⟩ := (normal_meet ha _).endsIn lo' hi' bounds
  have below := (mem_iff lo').1 first
  have above := (mem_iff hi').1 last
  obtain ⟨_, _, same, lower, -⟩ :=
    contains_iff.1 ((mem_iff lo).2 ⟨lowest, le_rfl, below.2.1.trans below.2.2⟩)
  cases bounds.symm.trans same
  obtain ⟨_, _, same, -, upper⟩ :=
    contains_iff.1 ((mem_iff hi).2 ⟨highest, below.2.1.trans below.2.2, le_rfl⟩)
  cases bounds.symm.trans same
  exact ⟨.inl (le_antisymm lower below.2.1), .inr (le_antisymm above.2.2 upper)⟩

/-- The bounds of what is trimmed are values outside the set. -/
theorem endsIn_trim (ha : a.Canonical) (cases : CaseSet) :
    (State.trim cases a).EndsIn {x | a.contains x ∧ x ∉ cases} := by
  intro lo hi bounds
  obtain ⟨first, last⟩ := (State.canonical_trim ha).normal.endsIn lo hi bounds
  obtain ⟨lower, upper⟩ := State.bounds_trim ha.normal.inside ha.isValid bounds
  exact ⟨⟨State.contains_of_contains_trim first, lower⟩,
    State.contains_of_contains_trim last, upper⟩

end RangeFlow.Interval
