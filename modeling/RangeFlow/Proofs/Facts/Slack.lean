import RangeFlow.Proofs.Facts.Discipline

/-!
# How far states can grow

`State.slack` counts what merges can still take away from a state: the bounds that are not at an end of
their width, and the slots that are known to equal an earlier one. It is at most three times the number
of slots (`State.slack_le`), a join never raises it (`State.slack_join_le`), and a widening that changes
the state lowers it (`State.slack_widen_lt`).
-/

namespace RangeFlow

/-! ## Bounds -/

namespace Interval

/-- The number of bounds of an interval that are not at an end of its width. -/
def slack (i : Interval) : Nat :=
  match i.bounds? with
  | none => 0
  | some (lo, hi) =>
      (if lo = Width.minValue i.bits then 0 else 1) + (if hi = Width.maxValue i.bits then 0 else 1)

@[simp]
theorem slack_top (bits : Nat) : (top bits).slack = 0 := by
  simp [slack, bounds?]

theorem slack_le_two (i : Interval) : i.slack ≤ 2 := by
  unfold slack
  split
  · omega
  · split_ifs <;> omega

theorem slack_of_bounds {i : Interval} {lo hi : Int} (bounds : i.bounds? = some (lo, hi)) :
    i.slack = (if lo = Width.minValue i.bits then 0 else 1) +
      (if hi = Width.maxValue i.bits then 0 else 1) := by
  rw [slack, bounds]

theorem slack_pos {i : Interval} (h : i.Proper) (informative : i.isTop = false) : 0 < i.slack := by
  cases i with
  | bottom bits => cases h.2
  | top bits => cases informative
  | range bits lo hi =>
    have bounded : ¬(lo = Width.minValue bits ∧ hi = Width.maxValue bits) := h.1.2.2.2.2
    rw [slack_of_bounds rfl, bits_range]
    split_ifs <;> simp_all

variable {a b : Interval} (ha : a.Proper) (hb : b.Proper) (same : a.bits = b.bits)
include ha hb same

theorem slack_join_le : (a.join b).slack ≤ a.slack := by
  obtain ⟨alo, ahi, abounds, inside⟩ := ha.exists_bounds
  obtain ⟨blo, bhi, bbounds, inside'⟩ := hb.exists_bounds
  rw [← same] at inside'
  have joined : a.join b = between a.bits (min alo blo) (max ahi bhi) := by
    rw [join, if_neg (not_not.2 same), abounds, bbounds]
  rw [joined, slack_of_bounds (bounds?_between (by omega) (by omega) (by omega)), bits_between,
    slack_of_bounds abounds]
  split_ifs <;> omega

/-- Widening changes an interval only by moving a bound to an end. -/
theorem widen_eq_or_slack_lt : a.widen b = a ∨ (a.widen b).slack < a.slack := by
  obtain ⟨alo, ahi, abounds, inside⟩ := ha.exists_bounds
  obtain ⟨blo, bhi, bbounds, inside'⟩ := hb.exists_bounds
  rw [← same] at inside'
  have widened : a.widen b = between a.bits (if blo < alo then Width.minValue a.bits else alo)
      (if ahi < bhi then Width.maxValue a.bits else ahi) := by
    rw [widen, if_neg (not_not.2 same), abounds, bbounds]
  by_cases grows : blo < alo ∨ ahi < bhi
  · right
    rw [widened, slack_of_bounds (bounds?_between (by split_ifs <;> omega) (by split_ifs <;> omega)
      (by split_ifs <;> omega)), bits_between, slack_of_bounds abounds]
    split_ifs <;> omega
  · left
    rw [not_or] at grows
    rw [widened, if_neg grows.1, if_neg grows.2, ← ha.1.normal.eq_between abounds]

end Interval

/-! ## Equalities -/

namespace AliasClasses

variable {a b : AliasClasses} {slots : List Slot}

/-- The slots of a list that are known to equal an earlier one. -/
def redundant (a : AliasClasses) (slots : List Slot) : Finset Slot :=
  slots.toFinset.filter fun x =>
    slots.any fun y => slots.idxOf y < slots.idxOf x && a.areAliased y x

theorem mem_redundant (disjoint : a.PairwiseDisjoint) {x : Slot} :
    x ∈ a.redundant slots ↔ x ∈ slots ∧ ∃ y ∈ slots, slots.idxOf y < slots.idxOf x ∧ a.Same y x := by
  simp [redundant, areAliased_iff disjoint]

theorem redundant_subset (ha : a.PairwiseDisjoint) (hb : b.PairwiseDisjoint)
    (finer : ∀ x y, b.Same x y → a.Same x y) : b.redundant slots ⊆ a.redundant slots := by
  intro x mem
  obtain ⟨hx, y, hy, earlier, same⟩ := (mem_redundant hb).1 mem
  exact (mem_redundant ha).2 ⟨hx, y, hy, earlier, finer y x same⟩

/-- The first slot that is known to equal a slot. -/
theorem exists_first (a : AliasClasses) {x : Slot} (hx : x ∈ slots) :
    ∃ first ∈ slots, a.Same x first ∧
      ∀ y ∈ slots, a.Same x y → slots.idxOf first ≤ slots.idxOf y := by
  classical
  obtain ⟨first, mem, least⟩ := Finset.exists_min_image
    (slots.toFinset.filter fun y => a.Same x y) slots.idxOf
    ⟨x, by simpa using ⟨hx, Same.refl a x⟩⟩
  obtain ⟨hf, same⟩ : first ∈ slots ∧ a.Same x first := by simpa using mem
  exact ⟨first, hf, same, fun y hy hxy => least y (by simpa using ⟨hy, hxy⟩)⟩

/-- A finer relation with as many redundant slots is the same on the slots. -/
theorem same_of_redundant_subset (ha : a.PairwiseDisjoint) (hb : b.PairwiseDisjoint)
    (finer : ∀ x y, b.Same x y → a.Same x y) (all : a.redundant slots ⊆ b.redundant slots)
    {x y : Slot} (hx : x ∈ slots) (hy : y ∈ slots) (same : a.Same x y) : b.Same x y := by
  obtain ⟨first, hf, sameFirst, least⟩ := a.exists_first hx
  -- What equals the first slot in `a` has no other first slot in `b`.
  have reaches {z : Slot} (hz : z ∈ slots) (hxz : a.Same x z) : b.Same first z := by
    obtain ⟨other, ho, sameOther, least'⟩ := b.exists_first hz
    have sameOther' : a.Same x other := hxz.trans ha (finer z other sameOther)
    by_cases equal : first = other
    · subst equal
      exact sameOther.symm
    · exfalso
      have earlier : slots.idxOf first < slots.idxOf other :=
        lt_of_le_of_ne (least other ho sameOther') fun e => equal ((List.idxOf_inj hf).1 e)
      have redundant : other ∈ a.redundant slots :=
        (mem_redundant ha).2 ⟨ho, first, hf, earlier, sameFirst.symm.trans ha sameOther'⟩
      obtain ⟨-, w, hw, before, sameW⟩ := (mem_redundant hb).1 (all redundant)
      have := least' w hw (sameOther.trans hb sameW.symm)
      omega
  exact (reaches hx (.refl a x)).symm.trans hb (reaches hy same)

end AliasClasses

/-! ## States -/

namespace State

/-- What merges can still take away from what a state says about some slots. -/
def slack (slots : List Slot) (s : State) : Nat :=
  ∑ slot ∈ slots.toFinset, (s.value slot).slack + (s.aliases.redundant slots).card

theorem slack_le (slots : List Slot) (s : State) : s.slack slots ≤ 3 * slots.toFinset.card := by
  have values : ∑ slot ∈ slots.toFinset, (s.value slot).slack ≤ slots.toFinset.card • 2 :=
    Finset.sum_le_card_nsmul _ _ _ fun slot _ => (s.value slot).slack_le_two
  have equalities : (s.aliases.redundant slots).card ≤ slots.toFinset.card :=
    Finset.card_filter_le _ _
  rw [smul_eq_mul] at values
  unfold slack
  omega

variable {slots : List Slot} {s t : State} (h : s.Obeys (.regular (· ∈ slots)))
  (h' : t.Obeys (.regular (· ∈ slots)))

/-- Nothing is known about a slot after a merge, or both sides know something. -/
theorem value_combine_cases {f : Interval → Interval → Interval} (slot : Slot) :
    (combine f s t).value slot = .top slot.bits ∨
      ∃ a b, s.values[slot]? = some a ∧ t.values[slot]? = some b ∧
        (combine f s t).value slot = f a b := by
  cases entry : (combine f s t).values[slot]? with
  | none => exact .inl (value_of_getElem?_eq_none entry)
  | some i =>
    obtain ⟨a, b, ha, hb, -, -, rfl⟩ := getElem?_combine.1 entry
    exact .inr ⟨a, b, ha, hb, value_of_getElem? entry⟩

include h h'

theorem slack_value_join_le (slot : Slot) : ((s.join t).value slot).slack ≤ (s.value slot).slack := by
  rcases value_combine_cases (f := Interval.join) (s := s) (t := t) slot with
    top | ⟨a, b, ha, hb, value⟩
  · rw [join, top, Interval.slack_top]
    exact Nat.zero_le _
  · rw [join, value, value_of_getElem? ha]
    exact Interval.slack_join_le (h.fact ha).1 (h'.fact hb).1
      ((h.width ha).trans (h'.width hb).symm)

theorem widen_value_eq_or_slack_lt (slot : Slot) :
    (s.widen t).value slot = s.value slot ∨
      ((s.widen t).value slot).slack < (s.value slot).slack := by
  rcases value_combine_cases (f := Interval.widen) (s := s) (t := t) slot with
    top | ⟨a, b, ha, hb, value⟩
  · rw [widen, top]
    cases entry : s.values[slot]? with
    | none => exact .inl (value_of_getElem?_eq_none entry).symm
    | some i =>
      right
      rw [value_of_getElem? entry, Interval.slack_top]
      exact Interval.slack_pos (h.fact entry).1 (h.fact entry).2
  · rw [widen, value, value_of_getElem? ha]
    exact Interval.widen_eq_or_slack_lt (h.fact ha).1 (h'.fact hb).1
      ((h.width ha).trans (h'.width hb).symm)

theorem redundant_combine_subset {f : Interval → Interval → Interval} :
    (combine f s t).aliases.redundant slots ⊆ s.aliases.redundant slots :=
  AliasClasses.redundant_subset h.classes.1
    (AliasClasses.pairwiseDisjoint_intersect h.classes.1 h'.classes.1)
    fun _ _ same => (AliasClasses.same_intersect.1 same).1

/-- A join does not give a state more to lose. -/
theorem slack_join_le : (s.join t).slack slots ≤ s.slack slots :=
  Nat.add_le_add (Finset.sum_le_sum fun slot _ => slack_value_join_le h h' slot)
    (Finset.card_le_card (redundant_combine_subset h h'))

/-- A widening that takes nothing away leaves the state as it is. -/
theorem widen_eq_self
    (values : ∀ slot ∈ slots, (s.widen t).value slot = s.value slot)
    (equalities : s.aliases.redundant slots ⊆ (s.widen t).aliases.redundant slots) :
    s.widen t = s := by
  have widened := h.widen (Discipline.lawful_regular _) h'
  refine ext_getElem? (fun slot => ?_) ?_
  · by_cases mem : slot ∈ slots
    · rw [widened.regular.getElem?_eq, values slot mem, h.regular.getElem?_eq slot]
    · -- Neither state says anything about another slot.
      have absent {u : State} (hu : u.Obeys (.regular (· ∈ slots))) : u.values[slot]? = none :=
        Option.eq_none_iff_forall_ne_some.2 fun _ entry => mem (hu.occurs entry)
      rw [absent widened, absent h]
  · refine AliasClasses.eq_of_same_iff widened.classes.1 h.classes.1 widened.classes.2.1
      h.classes.2.1 fun x y => ?_
    have finer : ∀ x y, (s.widen t).aliases.Same x y → s.aliases.Same x y :=
      fun x y same => (AliasClasses.same_intersect.1 same).1
    refine ⟨finer x y, fun same => ?_⟩
    rcases h.classes.2.2 same with rfl | ⟨hx, hy⟩
    · exact .refl _ _
    · exact AliasClasses.same_of_redundant_subset h.classes.1 widened.classes.1 finer equalities hx hy
        same

/-- A widening that changes a state takes something away. -/
theorem slack_widen_lt (changed : s.widen t ≠ s) : (s.widen t).slack slots < s.slack slots := by
  have values (slot : Slot) : ((s.widen t).value slot).slack ≤ (s.value slot).slack := by
    rcases widen_value_eq_or_slack_lt h h' slot with same | less
    · rw [same]
    · exact less.le
  have equalities : (s.widen t).aliases.redundant slots ⊆ s.aliases.redundant slots :=
    redundant_combine_subset h h'
  have sums := Finset.sum_le_sum fun slot (_ : slot ∈ slots.toFinset) => values slot
  have cards := Finset.card_le_card equalities
  refine lt_of_not_ge fun (not_less : _ + _ ≤ _ + _) => ?_
  refine changed (widen_eq_self h h' (fun slot mem => ?_) ?_)
  · refine (widen_value_eq_or_slack_lt h h' slot).resolve_right fun less => ?_
    have := Finset.sum_lt_sum (fun slot (_ : slot ∈ slots.toFinset) => values slot)
      ⟨slot, List.mem_toFinset.2 mem, less⟩
    omega
  · exact (Finset.eq_of_subset_of_card_le equalities (by omega)).ge

end State

end RangeFlow
