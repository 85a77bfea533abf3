import RangeFlow.Proofs.Facts.Inclusion

/-!
# Joins as least upper bounds

On orderly states inclusion is an order (`State.Orderly.le_antisymm`), and the join of two states is
the least state above both (`State.Orderly.join_le`). So there is at most one least state above some states
(`State.IsJoin.unique`), and joining the states in any order gives it (`State.isJoin_of_joinAll`).
-/

namespace RangeFlow

namespace Interval

theorem isSubset_antisymm {a b : Interval} (ha : a.Normal) (hb : b.Normal) (hab : a.isSubset b)
    (hba : b.isSubset a) : a = b :=
  ha.ext hb (bits_eq_of_isSubset hab)
    fun _ => ⟨contains_of_isSubset hab, contains_of_isSubset hba⟩

/-- The join is the least interval above both. -/
theorem join_isSubset {a b c : Interval} (hac : a.isSubset c) (hbc : b.isSubset c) :
    (a.join b).isSubset c := by
  obtain ⟨abits, aends⟩ := isSubset_iff.1 hac
  obtain ⟨bbits, bends⟩ := isSubset_iff.1 hbc
  unfold join
  rw [if_neg (not_not.2 (abits.trans bbits.symm))]
  split
  · exact hbc
  · exact hac
  · rename_i alo ahi blo bhi abounds bbounds
    obtain ⟨lo, hi, cbounds, hlo, hhi⟩ := aends _ _ abounds
    obtain ⟨lo', hi', cbounds', hlo', hhi'⟩ := bends _ _ bbounds
    obtain ⟨rfl, rfl⟩ : lo = lo' ∧ hi = hi' := by simpa using cbounds.symm.trans cbounds'
    refine isSubset_of_contains (normal_between _ _ _) (by simp [abits]) fun x hx => ?_
    obtain ⟨lower, upper, -⟩ := contains_between.1 hx
    exact contains_iff.2 ⟨lo, hi, cbounds, by omega, by omega⟩

/-- A full interval absorbs every other. -/
theorem top_join (bits : Nat) (i : Interval) : (top bits).join i = top bits := by
  unfold join
  split_ifs with other
  · rfl
  · cases bounds : i.bounds? with
    | none => rfl
    | some ends =>
      have lower : max (min (Width.minValue bits) ends.1) (Width.minValue bits) = Width.minValue bits :=
        max_eq_right (min_le_left _ _)
      have upper : min (max (Width.maxValue bits) ends.2) (Width.maxValue bits) = Width.maxValue bits :=
        min_eq_right (le_max_left _ _)
      have nonempty := Width.minValue_le_maxValue bits
      simp only [bounds?, Interval.bits, between, lower, upper, not_lt.2 nonempty, and_self, if_true,
        if_false]

theorem join_top {a : Interval} (ha : a.Normal) : a.join (top a.bits) = top a.bits :=
  isSubset_antisymm (normal_join ha trivial) trivial
    (join_isSubset (ha.inside.isSubset_top rfl) (isSubset_refl _))
    (isSubset_join_right trivial rfl)

end Interval

namespace State

variable {s t u : State} {A B : State → Prop}

/-! ## The order of orderly states -/

theorem Orderly.le_antisymm (hs : s.Orderly) (ht : t.Orderly) (hst : s.Le t) (hts : t.Le s) : s = t := by
  have value (slot : Slot) : s.value slot = t.value slot :=
    Interval.isSubset_antisymm (hs.value slot).1 (ht.value slot).1 (hst.value slot) (hts.value slot)
  have values : s.values = t.values := by
    apply Std.ExtTreeMap.ext_getElem?
    intro slot
    rw [hs.getElem?_eq, ht.getElem?_eq, value]
  have aliases : s.aliases = t.aliases :=
    AliasClasses.eq_of_same_iff hs.disjoint ht.disjoint hs.nontrivial ht.nontrivial
      fun x y => ⟨hts.same, hst.same⟩
  cases s
  cases t
  simp_all

/-- The join of states joins what they know about each slot. -/
theorem Orderly.value_join (hs : s.Orderly) (t : State) (slot : Slot) :
    (s.join t).value slot = (s.value slot).join (t.value slot) := by
  obtain ⟨normal, -, width⟩ := hs.value slot
  have entry : (s.join t).values[slot]? = s.values[slot]?.bind fun i =>
      t.values[slot]?.bind fun j => informative? slot (i.join j) := by
    simp only [State.join, State.combine, Std.ExtTreeMap.getElem?_filterMap']
    cases t.values[slot]? <;> rfl
  cases found : s.values[slot]? with
  | none =>
    rw [found, Option.bind_none] at entry
    rw [value_of_getElem?_eq_none entry, value_of_getElem?_eq_none found, Interval.top_join]
  | some i =>
    cases found' : t.values[slot]? with
    | none =>
      rw [found, found', Option.bind_some, Option.bind_none] at entry
      rw [value_of_getElem?_eq_none entry, value_of_getElem?_eq_none found', ← width,
        Interval.join_top normal]
    | some j =>
      rw [found, found', Option.bind_some, Option.bind_some] at entry
      rw [value_of_getElem? found] at width ⊢
      rw [value_of_getElem? found', State.value, Std.ExtTreeMap.getD_eq_getD_getElem?, entry,
        getD_informative? (by rw [Interval.bits_join, width])]

theorem Orderly.join_le (hs : s.Orderly) (hsu : s.Le u) (htu : t.Le u) : (s.join t).Le u where
  value slot := by
    rw [hs.value_join t]
    exact Interval.join_isSubset (hsu.value slot) (htu.value slot)
  same same := AliasClasses.same_intersect.2 ⟨hsu.same same, htu.same same⟩

/-! ## Joins of several states -/

/-- The least tidy state above some states. -/
structure IsJoin (s : State) (A : State → Prop) : Prop where
  tidy : s.Tidy
  above : ∀ t, A t → t.Le s
  least : ∀ u, u.Tidy → (∀ t, A t → t.Le u) → s.Le u

theorem IsJoin.unique (h : s.IsJoin A) (h' : t.IsJoin A) : s = t :=
  h.tidy.le_antisymm h'.tidy.toOrderly (h.least t h'.tidy h'.above) (h'.least s h.tidy h.above)

theorem IsJoin.congr (h : s.IsJoin A) (same : ∀ t, A t ↔ B t) : s.IsJoin B where
  tidy := h.tidy
  above t ht := h.above t ((same t).2 ht)
  least u hu above := h.least u hu fun t ht => above t ((same t).1 ht)

theorem Tidy.isJoin_singleton (h : s.Tidy) : s.IsJoin (· = s) where
  tidy := h
  above _ ht := ht ▸ Le.refl s
  least _ _ above := above s rfl

theorem IsJoin.join (h : s.IsJoin A) (ht : t.Tidy) : (s.join t).IsJoin fun r => A r ∨ r = t where
  tidy := h.tidy.join ht
  above r hr := by
    rcases hr with old | rfl
    · exact (h.above r old).trans h.tidy.le_join_left
    · exact h.tidy.le_join_right ht.toOrderly
  least u hu above :=
    h.tidy.join_le (h.least u hu fun r hr => above r (.inl hr)) (above t (.inr rfl))

/-- The join of some states, from the first to the last. Without states there is none. -/
def joinAll : List State → Option State
  | [] => none
  | s :: rest => some (rest.foldl join s)

theorem joinAll_eq_none_iff {states : List State} : joinAll states = none ↔ states = [] := by
  cases states <;> simp [joinAll]

theorem isJoin_foldl_join {rest : List State} (h : s.IsJoin A) (tidy : ∀ t ∈ rest, t.Tidy) :
    (rest.foldl join s).IsJoin fun r => A r ∨ r ∈ rest := by
  induction rest generalizing s A with
  | nil => exact h.congr (by simp)
  | cons t rest ih =>
    refine (ih (h.join (tidy t List.mem_cons_self))
      fun r hr => tidy r (List.mem_cons_of_mem _ hr)).congr fun r => ?_
    rw [List.mem_cons, or_assoc]

theorem isJoin_of_joinAll {states : List State} (tidy : ∀ t ∈ states, t.Tidy)
    (h : joinAll states = some s) : s.IsJoin (· ∈ states) := by
  cases states with
  | nil => cases h
  | cons t rest =>
    obtain rfl := Option.some.inj h
    refine (isJoin_foldl_join (tidy t List.mem_cons_self).isJoin_singleton
      fun r hr => tidy r (List.mem_cons_of_mem _ hr)).congr fun r => ?_
    rw [List.mem_cons]

end State

end RangeFlow
