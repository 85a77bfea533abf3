import RangeFlow.Proofs.Facts.Tidy

/-!
# Inclusion of states

`State.Le` is the order by what is known: larger states have larger intervals and fewer equalities. It
is a preorder on all states, and on orderly states it is what `State.isSubset` decides (`Le.isSubset`,
`Orderly.le_of_isSubset`). Merging gives upper bounds. Narrowing a state by what a smaller state knows
succeeds and stays above the smaller state (`Le.exists_narrow`, `Le.exists_equate`).
-/

namespace RangeFlow

/-! ## Alias classes -/

namespace AliasClasses

variable {a b c : AliasClasses} {x y : Slot}

theorem refines_iff :
    a.refines b = true ↔ ∀ d ∈ b.classes, ∃ c ∈ a.classes, ∀ slot ∈ d, slot ∈ c := by
  simp [refines]

theorem refines_refl (a : AliasClasses) : a.refines a :=
  refines_iff.2 fun d hd => ⟨d, hd, fun _ h => h⟩

theorem refines_trans (hab : a.refines b) (hbc : b.refines c) : a.refines c := by
  refine refines_iff.2 fun e he => ?_
  obtain ⟨d, hd, inner⟩ := refines_iff.1 hbc e he
  obtain ⟨c, hc, outer⟩ := refines_iff.1 hab d hd
  exact ⟨c, hc, fun slot h => outer slot (inner slot h)⟩

theorem same_of_refines (h : a.refines b) (same : b.Same x y) : a.Same x y := by
  rcases same with rfl | ⟨d, hd, hx, hy⟩
  · exact .refl _ _
  · obtain ⟨c, hc, inside⟩ := refines_iff.1 h d hd
    exact .of_mem hc (inside x hx) (inside y hy)

/-- Disjoint classes refine every set of classes whose equalities they know. -/
theorem refines_of_same (disjoint : a.PairwiseDisjoint) (nontrivial : b.Nontrivial)
    (h : ∀ x y, b.Same x y → a.Same x y) : a.refines b := by
  refine refines_iff.2 fun d hd => ?_
  obtain ⟨x, hx, y, hy, other⟩ := one_lt_size_iff.1 (nontrivial d hd)
  rcases h x y (.of_mem hd hx hy) with equal | ⟨c, hc, hx', -⟩
  · exact absurd equal other
  · refine ⟨c, hc, fun slot mem => ?_⟩
    rw [← classOf_eq_of_mem disjoint hc hx', mem_classOf disjoint]
    exact h x slot (.of_mem hd hx mem)

end AliasClasses

namespace State

variable {r s t u : State} {x y slot dst src z : Slot} {i j : Interval}

/-! ## The order -/

theorem isSubset_iff : s.isSubset t = true ↔
    (∀ (slot : Slot) (i : Interval), t.values[slot]? = some i → (s.value slot).isSubset i) ∧
      s.aliases.refines t.aliases = true := by
  simp only [isSubset, Bool.and_eq_true, List.all_eq_true, Prod.forall,
    Std.ExtTreeMap.mem_toList_iff_getElem?_eq_some]

theorem isSubset_refl (s : State) : s.isSubset s := by
  refine isSubset_iff.2 ⟨fun slot i entry => ?_, AliasClasses.refines_refl _⟩
  rw [value_of_getElem? entry]
  exact Interval.isSubset_refl i

/-- `s` knows at least as much as `t`: about every slot, and about which slots are equal. -/
structure Le (s t : State) : Prop where
  value : ∀ slot : Slot, (s.value slot).isSubset (t.value slot)
  same : ∀ {x y : Slot}, t.aliases.Same x y → s.aliases.Same x y

theorem Le.refl (s : State) : s.Le s := ⟨fun _ => Interval.isSubset_refl _, id⟩

theorem Le.trans (hst : s.Le t) (htu : t.Le u) : s.Le u :=
  ⟨fun slot => Interval.isSubset_trans (hst.value slot) (htu.value slot),
    fun same => hst.same (htu.same same)⟩

theorem Le.isSubset (h : s.Le t) (disjoint : s.aliases.PairwiseDisjoint)
    (nontrivial : t.aliases.Nontrivial) : s.isSubset t := by
  refine isSubset_iff.2 ⟨fun slot i entry => ?_, ?_⟩
  · rw [← value_of_getElem? entry]
    exact h.value slot
  · exact AliasClasses.refines_of_same disjoint nontrivial fun _ _ => h.same

/-- An interval inside the width of a slot says no less than that nothing is known. -/
theorem value_isSubset_of_isSubset (h : s.isSubset t) (slot : Slot)
    (inside : (s.value slot).Inside) (width : (s.value slot).bits = slot.bits) :
    (s.value slot).isSubset (t.value slot) := by
  cases entry : t.values[slot]? with
  | none =>
    rw [value_of_getElem?_eq_none entry]
    exact inside.isSubset_top width
  | some i =>
    rw [value_of_getElem? entry]
    exact (isSubset_iff.1 h).1 slot i entry

theorem Orderly.le_of_isSubset (hs : s.Orderly) (h : s.isSubset t) : s.Le t where
  value slot := value_isSubset_of_isSubset h slot (hs.value slot).1.inside (hs.value slot).2.2
  same := AliasClasses.same_of_refines (isSubset_iff.1 h).2

theorem Le.eval (h : s.Le t) (operand : Operand) : (s.eval operand).isSubset (t.eval operand) := by
  cases operand with
  | slot slot => exact h.value slot
  | constant constant => exact Interval.isSubset_refl _

/-! ## Writing -/

theorem value_set_self (s : State) (slot : Slot) (i : Interval) :
    (s.set slot i).value slot = if i.bits = slot.bits then i else .top slot.bits := by
  rw [State.set]
  split_ifs with width
  · exact value_store_self width
  · refine value_of_getElem?_eq_none ?_
    simp [getElem?_store, informative?, width]

theorem value_set_of_ne (s : State) (i : Interval) (other : z ≠ slot) :
    (s.set slot i).value z = s.value z :=
  value_store_of_ne (s := { s with aliases := s.aliases.invalidate slot }) other

theorem Le.set (h : s.Le t) (hs : s.aliases.PairwiseDisjoint) (ht : t.aliases.PairwiseDisjoint)
    (slot : Slot) (hij : i.isSubset j) : (s.set slot i).Le (t.set slot j) where
  value z := by
    by_cases here : z = slot
    · subst here
      rw [value_set_self, value_set_self, Interval.bits_eq_of_isSubset hij]
      split_ifs
      · exact hij
      · exact Interval.isSubset_refl _
    · rw [value_set_of_ne _ _ here, value_set_of_ne _ _ here]
      exact h.value z
  same {x y} same := by
    rw [State.set, aliases_store] at same ⊢
    rcases (AliasClasses.same_invalidate ht).1 same with equal | ⟨same, hx, hy⟩
    · exact .inl equal
    · exact (AliasClasses.same_invalidate hs).2 (.inr ⟨h.same same, hx, hy⟩)

theorem Tidy.value_copy (h : s.Tidy) (width : dst.bits = src.bits) (z : Slot) :
    (s.copy dst src).value z = if z = dst then s.value src else s.value z := by
  split_ifs with here
  · subst here
    refine value_store_self (s := { s with aliases := s.aliases.copy z src }) ?_
    rw [(h.value src).2.2, width]
  · exact value_store_of_ne (s := { s with aliases := s.aliases.copy dst src }) here

theorem Le.copy (h : s.Le t) (hs : s.Tidy) (ht : t.Tidy) (width : dst.bits = src.bits) :
    (s.copy dst src).Le (t.copy dst src) where
  value z := by
    rw [hs.value_copy width, ht.value_copy width]
    split_ifs
    · exact h.value src
    · exact h.value z
  same {x y} same := by
    rw [State.copy, aliases_store] at same ⊢
    by_cases self : dst = src
    · rw [AliasClasses.copy, if_pos self] at same ⊢
      exact h.same same
    · rw [AliasClasses.same_copy hs.disjoint self]
      rcases (AliasClasses.same_copy ht.disjoint self).1 same with
        equal | ⟨same, hx, hy⟩ | ⟨hx, same, hy⟩ | ⟨hy, same, hx⟩
      · exact .inl equal
      · exact .inr (.inl ⟨h.same same, hx, hy⟩)
      · exact .inr (.inr (.inl ⟨hx, h.same same, hy⟩))
      · exact .inr (.inr (.inr ⟨hy, h.same same, hx⟩))

/-! ## Merging -/

theorem Orderly.le_combine_left (h : s.Orderly) {f : Interval → Interval → Interval}
    (larger : ∀ {a b : Interval}, a.Normal → a.isSubset (f a b)) : s.Le (State.combine f s t) where
  value slot := by
    cases entry : (State.combine f s t).values[slot]? with
    | none =>
      rw [value_of_getElem?_eq_none entry]
      exact (h.value slot).1.inside.isSubset_top (h.value slot).2.2
    | some i =>
      obtain ⟨a, b, ha, -, -, -, rfl⟩ := getElem?_combine.1 entry
      rw [value_of_getElem? entry, value_of_getElem? ha]
      exact larger (h.entry ha).1
  same same := (AliasClasses.same_intersect.1 same).1

theorem Orderly.le_combine_right (h : t.Orderly) (hs : s.Orderly) {f : Interval → Interval → Interval}
    (larger : ∀ {a b : Interval}, b.Normal → a.bits = b.bits → b.isSubset (f a b)) :
    t.Le (State.combine f s t) where
  value slot := by
    cases entry : (State.combine f s t).values[slot]? with
    | none =>
      rw [value_of_getElem?_eq_none entry]
      exact (h.value slot).1.inside.isSubset_top (h.value slot).2.2
    | some i =>
      obtain ⟨a, b, ha, hb, -, -, rfl⟩ := getElem?_combine.1 entry
      rw [value_of_getElem? entry, value_of_getElem? hb]
      exact larger (h.entry hb).1 ((hs.entry ha).2.2.2.trans (h.entry hb).2.2.2.symm)
  same same := (AliasClasses.same_intersect.1 same).2

theorem Orderly.le_join_left (hs : s.Orderly) : s.Le (s.join t) :=
  hs.le_combine_left Interval.isSubset_join

theorem Orderly.le_join_right (hs : s.Orderly) (ht : t.Orderly) : t.Le (s.join t) :=
  ht.le_combine_right hs Interval.isSubset_join_right

theorem Orderly.le_widen_left (hs : s.Orderly) : s.Le (s.widen t) :=
  hs.le_combine_left Interval.isSubset_widen

theorem Orderly.le_widen_right (hs : s.Orderly) (ht : t.Orderly) : t.Le (s.widen t) :=
  ht.le_combine_right hs Interval.isSubset_widen_right

/-! ## Narrowing -/

theorem Tidy.value_narrowed (h : s.Tidy) {s' : State} (narrowed : s.Narrowed slot i s') (z : Slot) :
    s'.value z = if z ∈ s.aliases.classOf slot then (s.value z).meet i else s.value z := by
  split_ifs with mem
  · rw [State.value, Std.ExtTreeMap.getD_eq_getD_getElem?, narrowed.entries, if_pos mem]
    exact getD_informative? (by rw [Interval.bits_meet, (h.value z).2.2])
  · exact value_congr (by rw [narrowed.entries, if_neg mem])

theorem Tidy.le_of_narrowed (h : s.Tidy) {s' : State} (narrowed : s.Narrowed slot i s') :
    s'.Le s where
  value z := by
    rw [h.value_narrowed narrowed]
    split_ifs
    · exact Interval.meet_isSubset (h.value z).1 i
    · exact Interval.isSubset_refl _
  same := by
    rw [narrowed.aliases]
    exact id

/-- A narrowed slot is inside what it was narrowed to. -/
theorem Tidy.value_isSubset_of_narrowed (h : s.Tidy) {s' : State}
    (narrowed : s.Narrowed slot i s') (width : slot.bits = i.bits) : (s'.value slot).isSubset i := by
  rw [h.value_narrowed narrowed, if_pos ((AliasClasses.mem_classOf h.disjoint).2 (.refl _ _))]
  exact Interval.meet_isSubset_right (h.value slot).1 (by rw [(h.value slot).2.2, width])

/-- What a smaller state knows about a slot leaves something when the larger one is narrowed by it,
and the smaller state stays below. -/
theorem Le.exists_narrow (h : r.Le t) (hr : r.Tidy) (ht : t.Tidy)
    (below : (r.value slot).isSubset i) : ∃ t', t.narrow slot i = (true, t') ∧ r.Le t' := by
  -- All aliases of the slot have its interval in the smaller state.
  have common {z : Slot} (mem : z ∈ t.aliases.classOf slot) :
      (r.value z).isSubset ((t.value z).meet i) := by
    have same := h.same ((AliasClasses.mem_classOf ht.disjoint).1 mem)
    refine Interval.isSubset_meet (hr.value z).1 (h.value z) ?_
    rw [← hr.uniform.value same]
    exact below
  obtain ⟨t', result⟩ := exists_narrow_eq fun z mem =>
    Interval.isBottom_eq_false_of_isSubset (common mem) (hr.value z).2.1
  have narrowed := narrowed_of_narrow result
  refine ⟨t', result, fun z => ?_, fun same => h.same (narrowed.aliases ▸ same)⟩
  rw [ht.value_narrowed narrowed]
  split_ifs with mem
  · exact common mem
  · exact h.value z

theorem Tidy.le_of_equate (h : s.Tidy) {lhs rhs : Slot} {s' : State}
    (result : s.equate lhs rhs = (true, s')) : s'.Le s := by
  obtain ⟨s₁, s₂, first, second, rfl⟩ := equate_cases result
  have h₁ := h.narrowed first
  have below := ((h₁.le_of_narrowed second).trans (h.le_of_narrowed first))
  split_ifs
  · exact ⟨below.value, fun same =>
      (AliasClasses.same_union (h₁.narrowed second).disjoint).2 (.inl (below.same same))⟩
  · exact below

theorem Tidy.same_of_equate (h : s.Tidy) {lhs rhs : Slot} (width : lhs.bits = rhs.bits) {s' : State}
    (result : s.equate lhs rhs = (true, s')) : s'.aliases.Same lhs rhs := by
  obtain ⟨s₁, s₂, first, second, rfl⟩ := equate_cases result
  rw [if_pos width]
  have disjoint := ((h.narrowed first).narrowed second).disjoint
  exact (AliasClasses.same_union disjoint).2 (.inr (.inl ⟨.refl _ _, .refl _ _⟩))

/-- Slots that a smaller state knows to be equal can be equated in the larger one, and the smaller
state stays below. -/
theorem Le.exists_equate (h : r.Le t) (hr : r.Tidy) (ht : t.Tidy)
    (same : r.aliases.Same x y) : ∃ t', t.equate x y = (true, t') ∧ r.Le t' := by
  have equal := hr.uniform.value same
  have left : (r.value x).isSubset ((t.value x).meet (t.value y)) :=
    Interval.isSubset_meet (hr.value x).1 (h.value x) (equal ▸ h.value y)
  obtain ⟨t₁, first, h₁⟩ := h.exists_narrow hr ht left
  have ht₁ := ht.narrowed (narrowed_of_narrow first)
  obtain ⟨t₂, second, h₂⟩ := h₁.exists_narrow hr ht₁ (equal ▸ left)
  have ht₂ := ht₁.narrowed (narrowed_of_narrow second)
  have width := (hr.uniform x y same).1
  refine ⟨{ t₂ with aliases := t₂.aliases.union x y }, ?_, h₂.value, fun {u v} known => ?_⟩
  · simp only [State.equate, first, second, width, ↓reduceIte]
  · rcases (AliasClasses.same_union ht₂.disjoint).1 known with known | ⟨hu, hv⟩ | ⟨hu, hv⟩
    · exact h₂.same known
    · exact (h₂.same hu).symm.trans hr.disjoint (same.trans hr.disjoint (h₂.same hv))
    · exact (h₂.same hu).symm.trans hr.disjoint (same.symm.trans hr.disjoint (h₂.same hv))

end State

end RangeFlow
