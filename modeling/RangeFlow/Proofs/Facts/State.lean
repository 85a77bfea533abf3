import RangeFlow.Facts.Transfer
import RangeFlow.Proofs.Facts.Alias
import RangeFlow.Proofs.Interval.Closure
import RangeFlow.Proofs.Interval.Trimming

/-!
# What states keep

The entries and alias classes of a state behind each primitive step: storing an interval, narrowing a
class and merging two states. Every later law of states goes through these equations.
-/

namespace RangeFlow.State

variable {s t : State} {slot z : Slot} {i j : Interval}

theorem value_of_getElem? (h : s.values[slot]? = some i) : s.value slot = i := by
  rw [value, Std.ExtTreeMap.getD_eq_getD_getElem?, h, Option.getD_some]

theorem value_of_getElem?_eq_none (h : s.values[slot]? = none) :
    s.value slot = .top slot.bits := by
  rw [value, Std.ExtTreeMap.getD_eq_getD_getElem?, h, Option.getD_none]

theorem value_congr (h : s.values[slot]? = t.values[slot]?) : s.value slot = t.value slot := by
  rw [value, value, Std.ExtTreeMap.getD_eq_getD_getElem?, h, ← Std.ExtTreeMap.getD_eq_getD_getElem?]

/-- What is known about a slot is as wide as the slot, if what is kept for it is. -/
theorem bits_value_of_width (width : ∀ {i : Interval}, s.values[slot]? = some i → i.bits = slot.bits) :
    (s.value slot).bits = slot.bits := by
  cases entry : s.values[slot]? with
  | none => rw [value_of_getElem?_eq_none entry, Interval.bits_top]
  | some i => rw [value_of_getElem? entry, width entry]

theorem ext_getElem? (values : ∀ slot : Slot, s.values[slot]? = t.values[slot]?)
    (aliases : s.aliases = t.aliases) : s = t := by
  have := Std.ExtTreeMap.ext_getElem? values
  cases s
  cases t
  simp_all

theorem informative?_eq_some :
    informative? slot i = some j ↔ i.isTop = false ∧ i.bits = slot.bits ∧ j = i := by
  unfold informative?
  by_cases top : i.isTop <;> by_cases width : i.bits = slot.bits <;> simp [top, width, eq_comm]

theorem getD_informative? (width : i.bits = slot.bits) :
    (informative? slot i).getD (.top slot.bits) = i := by
  cases i <;> simp_all [informative?, Interval.isTop]

/-! ## Storing -/

@[simp]
theorem aliases_store (s : State) (slot : Slot) (i : Interval) :
    (s.store slot i).aliases = s.aliases := by
  unfold store
  split <;> rfl

theorem getElem?_store :
    (s.store slot i).values[z]? = if z = slot then informative? slot i else s.values[z]? := by
  unfold store
  cases informative? slot i with
  | some j => exact getElem?_insert_eq
  | none => exact getElem?_erase_eq

theorem value_store_self (width : i.bits = slot.bits) : (s.store slot i).value slot = i := by
  rw [value, Std.ExtTreeMap.getD_eq_getD_getElem?, getElem?_store, if_pos rfl,
    getD_informative? width]

theorem value_store_of_ne (other : z ≠ slot) : (s.store slot i).value z = s.value z :=
  value_congr (by rw [getElem?_store, if_neg other])

/-! ## Narrowing -/

@[simp]
theorem aliases_narrowAll (i : Interval) (slots : List Slot) (s : State) :
    (narrowAll i slots s).2.aliases = s.aliases := by
  fun_induction narrowAll i slots s with
  | case1 => rfl
  | case2 => rfl
  | case3 _ _ _ _ _ ih => rw [ih, aliases_store]

/-- Narrowing some slots succeeds when it leaves each of them a value. -/
theorem narrowAll_fst {slots : List Slot} (nodup : slots.Nodup) :
    (narrowAll i slots s).1 = true ↔ ∀ z ∈ slots, ((s.value z).meet i).isBottom = false := by
  fun_induction narrowAll i slots s with
  | case1 => simp
  | case2 slot rest s narrowed bottom =>
    have bottom : ((s.value slot).meet i).isBottom = true := bottom
    simp [bottom]
  | case3 slot rest s narrowed full ih =>
    obtain ⟨fresh, nodup⟩ := List.nodup_cons.1 nodup
    rw [ih nodup, List.forall_mem_cons]
    have others : ∀ z ∈ rest, (s.store slot narrowed).value z = s.value z :=
      fun z hz => value_store_of_ne fun e => fresh (e ▸ hz)
    constructor
    · exact fun h => ⟨Bool.eq_false_iff.2 full, fun z hz => others z hz ▸ h z hz⟩
    · exact fun h z hz => (others z hz).symm ▸ h.2 z hz

theorem getElem?_narrowAll {slots : List Slot} (nodup : slots.Nodup)
    (h : (narrowAll i slots s).1 = true) :
    (narrowAll i slots s).2.values[z]? =
      if z ∈ slots then informative? z ((s.value z).meet i) else s.values[z]? := by
  fun_induction narrowAll i slots s with
  | case1 => simp
  | case2 => simp at h
  | case3 slot rest s narrowed full ih =>
    obtain ⟨fresh, nodup⟩ := List.nodup_cons.1 nodup
    rw [ih nodup h]
    by_cases here : z = slot
    · subst here
      rw [if_neg fresh, if_pos List.mem_cons_self, getElem?_store, if_pos rfl]
    · rw [value_store_of_ne here, getElem?_store, if_neg here]
      simp [here]

/-- The state in which a slot and its aliases are constrained to an interval. -/
structure Narrowed (s : State) (slot : Slot) (i : Interval) (s' : State) : Prop where
  full : ∀ z ∈ s.aliases.classOf slot, ((s.value z).meet i).isBottom = false
  aliases : s'.aliases = s.aliases
  entries : ∀ z : Slot, s'.values[z]? =
    if z ∈ s.aliases.classOf slot then informative? z ((s.value z).meet i) else s.values[z]?

theorem narrowed_of_narrow {s' : State} (h : s.narrow slot i = (true, s')) :
    s.Narrowed slot i s' := by
  have nodup := nodup_toList (s.aliases.classOf slot)
  have success : (narrowAll i (s.aliases.classOf slot).toList s).1 = true := congrArg Prod.fst h
  have result : (narrowAll i (s.aliases.classOf slot).toList s).2 = s' := congrArg Prod.snd h
  refine ⟨fun z hz => ?_, ?_, fun z => ?_⟩
  · exact (narrowAll_fst nodup).1 success z (Std.ExtTreeSet.mem_toList.2 hz)
  · rw [← result, aliases_narrowAll]
  · rw [← result, getElem?_narrowAll nodup success]
    simp only [Std.ExtTreeSet.mem_toList]

theorem exists_narrow_eq (full : ∀ z ∈ s.aliases.classOf slot, ((s.value z).meet i).isBottom = false) :
    ∃ s', s.narrow slot i = (true, s') := by
  have success := (narrowAll_fst (nodup_toList (s.aliases.classOf slot))).2
    fun z hz => full z (Std.ExtTreeSet.mem_toList.1 hz)
  exact ⟨_, Prod.ext success rfl⟩

/-- The three steps of recording an equality that leaves some store. -/
theorem equate_cases {lhs rhs : Slot} {s' : State} (result : s.equate lhs rhs = (true, s')) :
    ∃ s₁ s₂, s.Narrowed lhs ((s.value lhs).meet (s.value rhs)) s₁ ∧
      s₁.Narrowed rhs ((s.value lhs).meet (s.value rhs)) s₂ ∧
      s' = if lhs.bits = rhs.bits then { s₂ with aliases := s₂.aliases.union lhs rhs } else s₂ := by
  unfold equate at result
  dsimp only at result
  split at result
  · cases result
  · rename_i s₁ first
    split at result
    · cases result
    · rename_i s₂ second
      refine ⟨s₁, s₂, narrowed_of_narrow first, narrowed_of_narrow second, ?_⟩
      split_ifs at result ⊢ <;> exact (congrArg Prod.snd result).symm

/-- Narrowing an operand narrows its slot, if it has one. -/
theorem narrow?_cases {operand : Operand} {s' : State} (result : s.narrow? operand i = some s') :
    (∃ slot, operand = .slot slot ∧ s.Narrowed slot i s') ∨
      (∃ constant, operand = .constant constant) ∧ s' = s := by
  cases operand with
  | slot slot =>
    unfold narrow? at result
    dsimp only at result
    split at result
    · rename_i narrowed
      obtain rfl := Option.some.inj result
      exact .inl ⟨slot, rfl, narrowed_of_narrow narrowed⟩
    · cases result
  | constant constant => exact .inr ⟨⟨constant, rfl⟩, (Option.some.inj result).symm⟩

/-- Only the equality of two slots is recorded. -/
theorem equate?_cases {lhs rhs : Operand} {s' : State} (result : s.equate? lhs rhs = some s') :
    (∃ x y, lhs = .slot x ∧ rhs = .slot y ∧ s.equate x y = (true, s')) ∨
      (∀ x y, lhs = .slot x → rhs ≠ .slot y) ∧ s' = s := by
  unfold equate? at result
  split at result
  · rename_i x y
    split at result
    · rename_i equated
      obtain rfl := Option.some.inj result
      exact .inl ⟨x, y, rfl, rfl, equated⟩
    · cases result
  · rename_i other
    exact .inr ⟨other, (Option.some.inj result).symm⟩

theorem areAliased_iff (disjoint : s.aliases.PairwiseDisjoint) {lhs rhs : Operand} :
    s.areAliased lhs rhs = true ↔
      ∃ x y, lhs = .slot x ∧ rhs = .slot y ∧ s.aliases.Same x y := by
  unfold areAliased
  split
  · rename_i x y
    simp [AliasClasses.areAliased_iff disjoint]
  · rename_i other
    simp only [Bool.false_eq_true, false_iff, not_exists, not_and]
    exact fun x y hx hy => absurd hy (other x y hx)

/-- How a condition is passed: by what is known to be equal, or in three steps. -/
theorem assume_cases {condition : Condition} {s' : State} (result : s.assume condition = some s') :
    (s.areAliased condition.lhs condition.rhs = true ∧ condition.comparison.isReflexive = true ∧
      s' = s) ∨
    (s.areAliased condition.lhs condition.rhs = false ∧
      ∃ lhs, lhs = (s.eval condition.lhs).refine condition.comparison (s.eval condition.rhs) ∧
        (lhs.isBottom = false ∧
          ((s.eval condition.rhs).refine condition.comparison.swap lhs).isBottom = false) ∧
      ∃ s₁, s.narrow? condition.lhs lhs = some s₁ ∧
      ∃ s₂, s₁.narrow? condition.rhs
          ((s.eval condition.rhs).refine condition.comparison.swap lhs) = some s₂ ∧
        (if condition.comparison = .eq then s₂.equate? condition.lhs condition.rhs else some s₂) =
          some s') := by
  unfold assume at result
  dsimp only at result
  cases aliased : s.areAliased condition.lhs condition.rhs with
  | true =>
    rw [aliased, if_pos rfl] at result
    split_ifs at result with reflexive
    exact .inl ⟨rfl, reflexive, (Option.some.inj result).symm⟩
  | false =>
    rw [aliased, if_neg Bool.false_ne_true] at result
    split at result
    · cases result
    · rename_i full
      obtain ⟨s₁, first, result⟩ := Option.bind_eq_some_iff.1 result
      obtain ⟨s₂, second, result⟩ := Option.bind_eq_some_iff.1 result
      simp only [Bool.or_eq_true, not_or, Bool.not_eq_true] at full
      exact .inr ⟨rfl, _, rfl, full, s₁, first, s₂, second, result⟩

theorem sorted_caseSet (values : CaseSet) : values.toList.Pairwise (· < ·) := by
  refine values.ordered_toList.imp fun {a b} h => ?_
  exact Std.compare_eq_lt.1 h

/-- A case is passed only if the scrutinee may have one of its values. It is then narrowed to what lies
between two of them. -/
theorem assumeCase_cases {scrutinee : Operand} {values : CaseSet} {s' : State}
    (result : s.assumeCase scrutinee values = some s') :
    ∃ lo ∈ values, (s.eval scrutinee).contains lo ∧
      ∃ hi ∈ values, (s.eval scrutinee).contains hi ∧ s.narrow? scrutinee
        ((s.eval scrutinee).meet (.between (s.eval scrutinee).bits lo hi)) = some s' := by
  unfold assumeCase at result
  dsimp only at result
  split at result
  · cases result
  · rename_i lo rest listed
    have listed_of_mem {value : Int} (mem : value ∈ lo :: rest) :
        value ∈ values ∧ (s.eval scrutinee).contains value := by
      rw [← listed, List.mem_filter, Std.ExtTreeSet.mem_toList] at mem
      exact mem
    obtain ⟨first, lowest⟩ := listed_of_mem List.mem_cons_self
    obtain ⟨last, highest⟩ :=
      listed_of_mem (List.mem_of_getLast? (List.getLast?_cons (a := lo) (l := rest)))
    exact ⟨lo, first, lowest, _, last, highest, result⟩

/-- A default is passed only if something is left of the scrutinee. -/
theorem assumeDefault_cases {scrutinee : Operand} {values : CaseSet} {s' : State}
    (result : s.assumeDefault scrutinee values = some s') :
    (trim values (s.eval scrutinee)).isBottom = false ∧
      s.narrow? scrutinee (trim values (s.eval scrutinee)) = some s' := by
  unfold assumeDefault at result
  dsimp only at result
  split_ifs at result with full
  exact ⟨Bool.eq_false_iff.2 full, result⟩

/-! ## Merging -/

theorem getElem?_combine {f : Interval → Interval → Interval} :
    (combine f s t).values[slot]? = some i ↔
      ∃ a b, s.values[slot]? = some a ∧ t.values[slot]? = some b ∧
        (f a b).isTop = false ∧ (f a b).bits = slot.bits ∧ i = f a b := by
  simp only [combine, Std.ExtTreeMap.getElem?_filterMap']
  cases s.values[slot]? with
  | none => simp
  | some a =>
    cases t.values[slot]? with
    | none => simp
    | some b => simp [informative?_eq_some]

end RangeFlow.State
