import RangeFlow.Proofs.Facts.Discipline
import RangeFlow.Proofs.Interval.Bitwise
import RangeFlow.Proofs.Semantics.Execution

/-!
# The stores that a state describes

`State.Describes` relates a state to the stores it stands for. Every operation takes described stores
to described stores (`Operation.describes_apply`), a store that takes an edge is described by the
state along it (`FlowGraph.exists_along_of_takes`), and merging two states loses no store
(`State.Describes.join_left` and its like).
-/

namespace RangeFlow

namespace State

/-- The stores that a state stands for: the value of every slot of a valid width lies in its
interval, and aliases have equal values. -/
structure Describes (s : State) (σ : Store) : Prop where
  value : ∀ {slot : Slot}, Width.isValid slot.bits → (s.value slot).contains (σ slot).toInt
  same : ∀ {x y : Slot}, Width.isValid x.bits → Width.isValid y.bits → s.aliases.Same x y →
    (σ x).toInt = (σ y).toInt

variable {s t : State} {σ : Store} {slot dst src : Slot} {i : Interval}

/-- What a state does not speak of holds of every store. -/
theorem describes_of_entries
    (entry : ∀ {slot : Slot} {i : Interval}, Width.isValid slot.bits → s.values[slot]? = some i →
      i.contains (σ slot).toInt)
    (same : ∀ {x y : Slot}, Width.isValid x.bits → Width.isValid y.bits → s.aliases.Same x y →
      (σ x).toInt = (σ y).toInt) : s.Describes σ := by
  refine ⟨fun {slot} valid => ?_, same⟩
  cases found : s.values[slot]? with
  | none =>
    rw [value_of_getElem?_eq_none found, Interval.contains_top]
    exact .of_toInt valid _
  | some i =>
    rw [value_of_getElem? found]
    exact entry valid found

theorem describes_unconstrained (σ : Store) : unconstrained.Describes σ := by
  refine describes_of_entries (fun _ entry => by simp [unconstrained] at entry) fun _ _ same => ?_
  rw [AliasClasses.same_empty.1 same]

/-! ## Admissible states -/

/-- A state that tests may narrow without losing a described store: bounds are inside the width of
their slot, alias classes are disjoint, and the slots of no valid width, which no store is asked about,
keep no empty interval. -/
structure Admissible (s : State) : Prop where
  entry : ∀ {slot : Slot} {i : Interval}, s.values[slot]? = some i →
    i.Inside ∧ i.bits = slot.bits ∧ (Width.isValid slot.bits ∨ i.isBottom = false)
  disjoint : s.aliases.PairwiseDisjoint

theorem Obeys.admissible (h : s.Obeys .admissible) : s.Admissible where
  entry entry := ⟨h.fact entry, h.width entry, .inl (h.valid entry)⟩
  disjoint := h.classes

theorem Orderly.admissible (h : s.Orderly) : s.Admissible where
  entry entry := by
    obtain ⟨normal, -, full, width⟩ := h.entry entry
    exact ⟨normal.inside, width, .inr full⟩
  disjoint := h.disjoint

theorem Admissible.bits_value (h : s.Admissible) (slot : Slot) :
    (s.value slot).bits = slot.bits :=
  bits_value_of_width fun entry => (h.entry entry).2.1

theorem Admissible.bits_eval (h : s.Admissible) (operand : Operand) :
    (s.eval operand).bits = operand.bits := by
  cases operand with
  | slot slot => exact h.bits_value slot
  | constant constant => exact Interval.bits_constant _ _

theorem Admissible.inside_value (h : s.Admissible) (slot : Slot) : (s.value slot).Inside := by
  cases entry : s.values[slot]? with
  | none =>
    rw [value_of_getElem?_eq_none entry]
    exact Interval.Normal.inside trivial
  | some i =>
    rw [value_of_getElem? entry]
    exact (h.entry entry).1

theorem Admissible.inside_eval (h : s.Admissible) (operand : Operand) :
    (s.eval operand).Inside := by
  cases operand with
  | slot slot => exact h.inside_value slot
  | constant constant => exact (Interval.normal_between _ _ _).inside

theorem Admissible.isBottom_value (h : s.Admissible) (invalid : ¬Width.isValid slot.bits) :
    (s.value slot).isBottom = false := by
  cases entry : s.values[slot]? with
  | none =>
    rw [value_of_getElem?_eq_none entry]
    rfl
  | some i =>
    rw [value_of_getElem? entry]
    exact (h.entry entry).2.2.resolve_left invalid

theorem Admissible.narrowed (h : s.Admissible) {s' : State} (narrowed : s.Narrowed slot i s') :
    s'.Admissible where
  entry {z j} entry := by
    rw [narrowed.entries] at entry
    split_ifs at entry with mem
    · obtain ⟨-, width, rfl⟩ := informative?_eq_some.1 entry
      exact ⟨Interval.inside_meet (h.inside_value z) i, width, .inr (narrowed.full z mem)⟩
    · exact h.entry entry
  disjoint := by
    rw [narrowed.aliases]
    exact h.disjoint

theorem Admissible.narrow? (h : s.Admissible) {operand : Operand} {s' : State}
    (result : s.narrow? operand i = some s') : s'.Admissible := by
  rcases narrow?_cases result with ⟨slot, rfl, narrowed⟩ | ⟨-, rfl⟩
  · exact h.narrowed narrowed
  · exact h

theorem Admissible.forget (h : s.Admissible) (slot : Slot) : (s.forget slot).Admissible where
  entry {z j} entry := by
    rw [State.forget, State.set, getElem?_store] at entry
    split_ifs at entry with here
    · simp [informative?, Interval.isTop] at entry
    · exact h.entry entry
  disjoint := by
    rw [State.forget, State.set, aliases_store]
    exact AliasClasses.pairwiseDisjoint_invalidate h.disjoint slot

/-! ## Reading -/

theorem Describes.eval (h : s.Describes σ) {operand : Operand}
    (valid : Width.isValid operand.bits) : (s.eval operand).contains (operand.read σ).toInt := by
  cases operand with
  | slot slot => exact h.value valid
  | constant constant =>
    exact (Interval.contains_constant valid).2 (Width.toInt_ofInt valid _)

/-! ## Writing -/

theorem toInt_update_self (σ : Store) (slot : Slot) (x : BitVec slot.bits) :
    (Function.update σ slot x slot).toInt = x.toInt := by
  rw [Function.update_self]

/-- Overwriting a slot, with an interval that holds the new value. -/
theorem Describes.set (h : s.Describes σ) (admissible : s.Admissible) (width : i.bits = slot.bits)
    {x : BitVec slot.bits} (hx : i.contains x.toInt) :
    (s.set slot i).Describes (Function.update σ slot x) := by
  refine ⟨fun {z} valid => ?_, fun {y z} validY validZ same => ?_⟩
  · by_cases here : z = slot
    · subst here
      rwa [State.set, value_store_self width, toInt_update_self]
    · rw [State.set, value_store_of_ne here, Function.update_of_ne here]
      exact h.value valid
  · rw [State.set, aliases_store, AliasClasses.same_invalidate admissible.disjoint] at same
    rcases same with rfl | ⟨same, hy, hz⟩
    · rfl
    · rw [Function.update_of_ne hy, Function.update_of_ne hz]
      exact h.same validY validZ same

theorem Describes.forget (h : s.Describes σ) (admissible : s.Admissible)
    (valid : Width.isValid slot.bits) (x : BitVec slot.bits) :
    (s.forget slot).Describes (Function.update σ slot x) :=
  h.set admissible (Interval.bits_top _) (Interval.contains_top.2 (.of_toInt valid x))

/-- A word of its own width is extended to itself. -/
theorem toInt_signExtend_of_eq {v w : Nat} (width : w = v) (x : BitVec v) :
    (x.signExtend w).toInt = x.toInt := by
  subst width
  rw [BitVec.signExtend_eq]

theorem Describes.copy (h : s.Describes σ) (admissible : s.Admissible)
    (width : dst.bits = src.bits) (valid : Width.isValid src.bits) :
    (s.copy dst src).Describes (Function.update σ dst ((σ src).signExtend dst.bits)) := by
  have written : (Function.update σ dst ((σ src).signExtend dst.bits) dst).toInt = (σ src).toInt := by
    rw [Function.update_self, toInt_signExtend_of_eq width]
  -- The source keeps its value, also when it is copied to itself.
  have source : (Function.update σ dst ((σ src).signExtend dst.bits) src).toInt = (σ src).toInt := by
    by_cases same : src = dst
    · subst same
      exact written
    · rw [Function.update_of_ne same]
  refine ⟨fun {z} validZ => ?_, fun {y z} validY validZ same => ?_⟩
  · by_cases here : z = dst
    · subst here
      rw [State.copy, value_store_self (by rw [admissible.bits_value, width]), written]
      exact h.value valid
    · rw [State.copy, value_store_of_ne here, Function.update_of_ne here]
      exact h.value validZ
  · rw [State.copy, aliases_store] at same
    by_cases self : dst = src
    · subst self
      rw [AliasClasses.copy, if_pos rfl] at same
      have unchanged (u : Slot) :
          (Function.update σ dst ((σ dst).signExtend dst.bits) u).toInt = (σ u).toInt := by
        by_cases here : u = dst
        · subst here
          exact written
        · rw [Function.update_of_ne here]
      rw [unchanged, unchanged]
      exact h.same validY validZ same
    · rw [AliasClasses.same_copy admissible.disjoint self] at same
      rcases same with rfl | ⟨same, hy, hz⟩ | ⟨rfl, same, hz⟩ | ⟨rfl, same, hy⟩
      · rfl
      · rw [Function.update_of_ne hy, Function.update_of_ne hz]
        exact h.same validY validZ same
      · rw [written, Function.update_of_ne hz]
        exact h.same valid validZ same
      · rw [written, Function.update_of_ne hy]
        exact (h.same valid validY same).symm

/-! ## Narrowing -/

/-- A narrowed state describes the stores in which the narrowed slot lies in the interval. -/
theorem Describes.narrowed (h : s.Describes σ) (admissible : s.Admissible)
    (valid : Width.isValid slot.bits) (hi : i.contains (σ slot).toInt) {s' : State}
    (narrowed : s.Narrowed slot i s') :
    s'.Describes σ := by
  refine ⟨fun {z} validZ => ?_, fun validX validY same => ?_⟩
  · by_cases mem : z ∈ s.aliases.classOf slot
    · have equal := h.same valid validZ ((AliasClasses.mem_classOf admissible.disjoint).1 mem)
      have width : ((s.value z).meet i).bits = z.bits := by
        rw [Interval.bits_meet, admissible.bits_value]
      have value : s'.value z = (s.value z).meet i := by
        rw [State.value, Std.ExtTreeMap.getD_eq_getD_getElem?, narrowed.entries, if_pos mem,
          getD_informative? width]
      rw [value]
      refine Interval.contains_meet (h.value validZ) (equal ▸ hi) ?_
      rw [admissible.bits_value]
      exact .of_toInt validZ _
    · have value : s'.value z = s.value z := value_congr (by rw [narrowed.entries, if_neg mem])
      rw [value]
      exact h.value validZ
  · rw [narrowed.aliases] at same
    exact h.same validX validY same

/-- Narrowing to an interval that holds the value of the slot leaves every slot a value. -/
theorem Describes.exists_narrow (h : s.Describes σ) (admissible : s.Admissible)
    (width : i.bits = slot.bits) (valid : Width.isValid slot.bits) (hi : i.contains (σ slot).toInt) :
    ∃ s', s.narrow slot i = (true, s') ∧ s'.Describes σ := by
  have full : ∀ z ∈ s.aliases.classOf slot, ((s.value z).meet i).isBottom = false := by
    intro z mem
    by_cases validZ : Width.isValid z.bits
    · have equal := h.same valid validZ ((AliasClasses.mem_classOf admissible.disjoint).1 mem)
      refine Interval.isBottom_eq_false (Interval.contains_meet (h.value validZ) (equal ▸ hi) ?_)
      rw [admissible.bits_value]
      exact .of_toInt validZ _
    · -- The interval has another width than the slot, and says nothing about it.
      have other : (s.value z).bits ≠ i.bits := by
        rw [admissible.bits_value, width]
        exact fun same => validZ (same ▸ valid)
      rw [Interval.meet_of_bits_ne other]
      exact admissible.isBottom_value validZ
  obtain ⟨s', result⟩ := exists_narrow_eq full
  exact ⟨s', result, h.narrowed admissible valid hi (narrowed_of_narrow result)⟩

theorem Describes.exists_narrow? (h : s.Describes σ) (admissible : s.Admissible)
    {operand : Operand} (width : i.bits = operand.bits) (valid : Width.isValid operand.bits)
    (hi : i.contains (operand.read σ).toInt) :
    ∃ s', s.narrow? operand i = some s' ∧ s'.Describes σ := by
  cases operand with
  | slot slot =>
    obtain ⟨s', result, described⟩ := h.exists_narrow admissible width valid hi
    exact ⟨s', by rw [State.narrow?, result], described⟩
  | constant constant => exact ⟨s, rfl, h⟩

theorem Describes.exists_equate (h : s.Describes σ) (admissible : s.Admissible) {lhs rhs : Slot}
    (width : lhs.bits = rhs.bits) (valid : Width.isValid lhs.bits)
    (equal : (σ lhs).toInt = (σ rhs).toInt) :
    ∃ s', s.equate lhs rhs = (true, s') ∧ s'.Describes σ := by
  have validRhs : Width.isValid rhs.bits := width ▸ valid
  have bits : ((s.value lhs).meet (s.value rhs)).bits = lhs.bits := by
    rw [Interval.bits_meet, admissible.bits_value]
  have common : ((s.value lhs).meet (s.value rhs)).contains (σ lhs).toInt := by
    refine Interval.contains_meet (h.value valid) (equal ▸ h.value validRhs) ?_
    rw [admissible.bits_value]
    exact .of_toInt valid _
  obtain ⟨s₁, first, h₁⟩ := h.exists_narrow admissible bits valid common
  have admissible₁ := admissible.narrowed (narrowed_of_narrow first)
  obtain ⟨s₂, second, h₂⟩ := h₁.exists_narrow admissible₁ (bits.trans width) validRhs (equal ▸ common)
  have admissible₂ := admissible₁.narrowed (narrowed_of_narrow second)
  refine ⟨{ s₂ with aliases := s₂.aliases.union lhs rhs }, ?_, fun {z} => h₂.value,
    fun {x y} validX validY same => ?_⟩
  · simp only [equate, first, second, if_pos width]
  · rcases (AliasClasses.same_union admissible₂.disjoint).1 same with same | ⟨hx, hy⟩ | ⟨hx, hy⟩
    · exact h₂.same validX validY same
    · rw [← h₂.same valid validX hx, ← h₂.same validRhs validY hy, equal]
    · rw [← h₂.same validRhs validX hx, ← h₂.same valid validY hy, equal]

theorem Describes.exists_equate? (h : s.Describes σ) (admissible : s.Admissible)
    {lhs rhs : Operand} (width : lhs.bits = rhs.bits) (valid : Width.isValid lhs.bits)
    (equal : (lhs.read σ).toInt = (rhs.read σ).toInt) :
    ∃ s', s.equate? lhs rhs = some s' ∧ s'.Describes σ := by
  unfold equate?
  split
  · obtain ⟨s', result, described⟩ := h.exists_equate admissible width valid equal
    exact ⟨s', by rw [result], described⟩
  · exact ⟨s, rfl, h⟩

/-! ## Tests -/

/-- A store in which a condition holds is described by the state that assumes it. -/
theorem Describes.exists_assume (h : s.Describes σ) (admissible : s.Admissible)
    {condition : Condition} (width : condition.lhs.bits = condition.rhs.bits)
    (valid : Width.isValid condition.lhs.bits) (holds : condition.Holds σ) :
    ∃ s', s.assume condition = some s' ∧ s'.Describes σ := by
  have validRhs : Width.isValid condition.rhs.bits := width ▸ valid
  have holdsLhs := Width.Holds.of_toInt valid (condition.lhs.read σ)
  have holdsRhs := Width.Holds.of_toInt validRhs (condition.rhs.read σ)
  cases aliased : s.areAliased condition.lhs condition.rhs with
  | true =>
    -- Equal values satisfy the comparison, so it is reflexive.
    have reflexive : condition.comparison.isReflexive = true := by
      obtain ⟨x, y, hl, hr, same⟩ := (areAliased_iff admissible.disjoint).1 aliased
      unfold Condition.Holds at holds
      rw [hl] at valid holds
      rw [hr] at validRhs holds
      change condition.comparison.holds (σ x).toInt (σ y).toInt at holds
      rwa [h.same valid validRhs same, Comparison.holds_self] at holds
    exact ⟨s, by simp [assume, aliased, reflexive], h⟩
  | false =>
    have left : ((s.eval condition.lhs).refine condition.comparison (s.eval condition.rhs)).contains
        (condition.lhs.read σ).toInt :=
      Interval.contains_refine (h.eval valid) (h.eval validRhs)
        (by rwa [admissible.bits_eval]) holds
    generalize lhs_eq :
      (s.eval condition.lhs).refine condition.comparison (s.eval condition.rhs) = lhs at left
    have right : ((s.eval condition.rhs).refine condition.comparison.swap lhs).contains
        (condition.rhs.read σ).toInt :=
      Interval.contains_refine (h.eval validRhs) left (by rwa [admissible.bits_eval])
        (by rwa [Comparison.holds_swap])
    have lhs_bits : lhs.bits = condition.lhs.bits := by
      rw [← lhs_eq, Interval.bits_refine, admissible.bits_eval]
    have rhs_bits : ((s.eval condition.rhs).refine condition.comparison.swap lhs).bits =
        condition.rhs.bits := by
      rw [Interval.bits_refine, admissible.bits_eval]
    obtain ⟨s₁, first, h₁⟩ := h.exists_narrow? admissible lhs_bits valid left
    have admissible₁ := admissible.narrow? first
    obtain ⟨s₂, second, h₂⟩ := h₁.exists_narrow? admissible₁ rhs_bits validRhs right
    have admissible₂ := admissible₁.narrow? second
    have opened : s.assume condition =
        if condition.comparison = .eq then s₂.equate? condition.lhs condition.rhs else some s₂ := by
      simp [assume, aliased, lhs_eq, Interval.isBottom_eq_false left,
        Interval.isBottom_eq_false right, first, second]
    rw [opened]
    split_ifs with equality
    · refine h₂.exists_equate? admissible₂ width valid ?_
      rw [Condition.Holds, equality] at holds
      exact of_decide_eq_true holds
    · exact ⟨s₂, rfl, h₂⟩

theorem Describes.exists_assumeCase (h : s.Describes σ) (admissible : s.Admissible)
    {scrutinee : Operand} {values : CaseSet} (valid : Width.isValid scrutinee.bits)
    (matched : (scrutinee.read σ).toInt ∈ values) :
    ∃ s', s.assumeCase scrutinee values = some s' ∧ s'.Describes σ := by
  have held := h.eval valid
  have mem : (scrutinee.read σ).toInt ∈ values.toList.filter (s.eval scrutinee).contains :=
    List.mem_filter.2 ⟨Std.ExtTreeSet.mem_toList.2 matched, held⟩
  have sorted := (sorted_caseSet values).filter (s.eval scrutinee).contains
  unfold assumeCase
  dsimp only
  cases cases_eq : values.toList.filter (s.eval scrutinee).contains with
  | nil =>
    rw [cases_eq] at mem
    simp at mem
  | cons lo rest =>
    rw [cases_eq] at mem sorted
    -- The list is sorted, so its ends enclose the value.
    have lower : lo ≤ (scrutinee.read σ).toInt := by
      rcases List.mem_cons.1 mem with e | mem
      · exact e.ge
      · exact (List.rel_of_pairwise_cons sorted mem).le
    have upper : (scrutinee.read σ).toInt ≤ rest.getLast?.getD lo := by
      obtain ⟨front, split⟩ := List.getLast?_eq_some_iff.1 (List.getLast?_cons (a := lo) (l := rest))
      rw [split] at mem sorted
      rcases List.mem_append.1 mem with mem | mem
      · exact ((List.pairwise_append.1 sorted).2.2 _ mem _ (List.mem_singleton_self _)).le
      · exact (List.mem_singleton.1 mem).le
    refine h.exists_narrow? admissible ?_ valid (Interval.contains_meet held ?_ ?_)
    · rw [Interval.bits_meet, admissible.bits_eval]
    · exact Interval.contains_between.2
        ⟨lower, upper, by rw [admissible.bits_eval]; exact .of_toInt valid _⟩
    · rw [admissible.bits_eval]
      exact .of_toInt valid _

theorem Describes.exists_assumeDefault (h : s.Describes σ) (admissible : s.Admissible)
    {scrutinee : Operand} {values : CaseSet} (valid : Width.isValid scrutinee.bits)
    (unmatched : (scrutinee.read σ).toInt ∉ values) :
    ∃ s', s.assumeDefault scrutinee values = some s' ∧ s'.Describes σ := by
  have held : (trim values (s.eval scrutinee)).contains (scrutinee.read σ).toInt :=
    contains_trim (admissible.inside_eval scrutinee) (by rwa [admissible.bits_eval]) (h.eval valid)
      unmatched
  unfold assumeDefault
  dsimp only
  rw [if_neg (by simp [Interval.isBottom_eq_false held])]
  exact h.exists_narrow? admissible (by rw [bits_trim, admissible.bits_eval]) valid held

/-! ## Merging -/

theorem Describes.entry (h : s.Describes σ) (entry : s.values[slot]? = some i)
    (valid : Width.isValid slot.bits) : i.contains (σ slot).toInt :=
  value_of_getElem? entry ▸ h.value valid

/-- A merged state describes a store if the merged entries hold its values. -/
theorem describes_combine {f : Interval → Interval → Interval}
    (value : ∀ {slot : Slot} {a b : Interval}, Width.isValid slot.bits →
      s.values[slot]? = some a → t.values[slot]? = some b →
      Width.Holds (f a b).bits (σ slot).toInt → (f a b).contains (σ slot).toInt)
    (same : ∀ {x y : Slot}, Width.isValid x.bits → Width.isValid y.bits →
      s.aliases.Same x y ∧ t.aliases.Same x y → (σ x).toInt = (σ y).toInt) :
    (combine f s t).Describes σ := by
  refine describes_of_entries (fun {slot i} valid entry => ?_) fun validX validY related => ?_
  · obtain ⟨a, b, ha, hb, -, width, rfl⟩ := getElem?_combine.1 entry
    refine value valid ha hb ?_
    rw [width]
    exact .of_toInt valid (σ slot)
  · exact same validX validY (AliasClasses.same_intersect.1 related)

theorem Describes.join_left (h : s.Describes σ) : (s.join t).Describes σ :=
  describes_combine
    (fun valid ha _ held => Interval.contains_join_left (h.entry ha valid)
      (by rwa [Interval.bits_join] at held))
    fun validX validY related => h.same validX validY related.1

theorem Describes.join_right (h : t.Describes σ) : (s.join t).Describes σ :=
  describes_combine
    (fun valid _ hb held => Interval.contains_join_right (h.entry hb valid)
      (by rwa [Interval.bits_join] at held))
    fun validX validY related => h.same validX validY related.2

theorem Describes.widen_left (h : s.Describes σ) : (s.widen t).Describes σ :=
  describes_combine
    (fun valid ha _ held => Interval.contains_widen_left (h.entry ha valid)
      (by rwa [Interval.bits_widen] at held))
    fun validX validY related => h.same validX validY related.1

theorem Describes.widen_right (h : t.Describes σ) : (s.widen t).Describes σ :=
  describes_combine
    (fun valid _ hb held => Interval.contains_widen_right (h.entry hb valid)
      (by rwa [Interval.bits_widen] at held))
    fun validX validY related => h.same validX validY related.2

/-! ## Calls -/

theorem toInt_signExtend {v w : Nat} (valid : Width.isValid w) (x : BitVec v) :
    (x.signExtend w).toInt = Width.wrap x.toInt w := by
  rw [BitVec.signExtend, Width.toInt_ofInt valid]

theorem Describes.setResult (h : s.Describes σ) (admissible : s.Admissible)
    {summary : Option CallSummary} {arguments : List Operand} (valid : Width.isValid dst.bits)
    (arguments_valid : ∀ a ∈ arguments, Width.isValid a.bits) {result : BitVec dst.bits}
    (allowed : CallSummary.Allows summary arguments σ result) :
    (s.setResult summary dst arguments).Describes (Function.update σ dst result) := by
  unfold State.setResult
  split
  · rename_i position
    split
    · rename_i argument passed
      have argument_valid := arguments_valid _ (List.mem_of_getElem? passed)
      obtain rfl := allowed _ passed
      split_ifs with width
      · exact h.copy admissible width.symm argument_valid
      · refine h.set admissible (Interval.bits_cast _ _) ?_
        rw [toInt_signExtend valid]
        exact Interval.contains_cast valid (h.value argument_valid)
    · rename_i argument _ passed
      obtain rfl := allowed _ passed
      refine h.set admissible (Interval.bits_cast _ _) ?_
      rw [toInt_signExtend valid]
      exact Interval.contains_cast valid (h.eval (arguments_valid _ (List.mem_of_getElem? passed)))
    · exact h.forget admissible valid result
  · rename_i summary _
    cases summary with
    | returns lo hi =>
      obtain ⟨value, lower, upper, rfl⟩ := allowed
      simp only [CallSummary.returnedInterval?, Option.getD_some, if_neg (not_lt.2 (lower.trans upper))]
      refine h.set admissible (Interval.bits_ofExact _ _ _) ?_
      rw [Width.toInt_ofInt valid]
      exact Interval.contains_ofExact valid lower upper
    | returnsArgument position => exact h.forget admissible valid result
  · exact h.forget admissible valid result

/-- Forgetting some slots covers every store that differs from a described one only there. -/
theorem Describes.forgetAll {writes : List Slot} {σ' : Store} (h : s.Describes σ)
    (admissible : s.Admissible) (valid : ∀ slot ∈ writes, Width.isValid slot.bits)
    (unchanged : ∀ slot, slot ∉ writes → σ' slot = σ slot) :
    (writes.foldl State.forget s).Describes σ' := by
  induction writes generalizing s σ with
  | nil =>
    have same : σ' = σ := funext fun slot => unchanged slot (List.not_mem_nil)
    exact same ▸ h
  | cons slot writes ih =>
    have validSlot := valid slot List.mem_cons_self
    refine ih (h.forget admissible validSlot (σ' slot)) (admissible.forget slot)
      (fun z hz => valid z (List.mem_cons_of_mem _ hz)) fun z hz => ?_
    by_cases here : z = slot
    · subst here
      rw [Function.update_self]
    · rw [Function.update_of_ne here]
      exact unchanged z (by simp [here, hz])

end State

/-! ## Operations and edges -/

/-- What an operation makes of a described store is described by the state behind it. -/
theorem Operation.describes_apply {summaries : Summaries} {operation : Operation}
    (sorted : operation.WellSorted) {s : State} {σ σ' : Store} (h : s.Describes σ)
    (admissible : s.Admissible) (step : operation.Step summaries σ σ') :
    (operation.apply summaries s).Describes σ' := by
  cases operation with
  | const dst constant =>
    have valid : Width.isValid dst.bits := sorted.written (List.mem_singleton_self _)
    have width : dst.bits = constant.bits := of_decide_eq_true sorted.2
    subst step
    refine h.set admissible (by rw [Interval.bits_constant, width]) ?_
    rw [State.toInt_signExtend_of_eq width]
    exact (Interval.contains_constant (width ▸ valid)).2 (Width.toInt_ofInt (width ▸ valid) _)
  | copy dst src =>
    obtain ⟨width, -, valid⟩ := sorted.copied
    subst step
    exact h.copy admissible width valid
  | unary dst operator operand =>
    have valid : Width.isValid operand.bits := sorted.read (List.mem_singleton_self _)
    have width : dst.bits = operand.bits := of_decide_eq_true sorted.2
    subst step
    refine h.set admissible (by rw [Interval.bits_unary, admissible.bits_eval, width]) ?_
    rw [State.toInt_signExtend_of_eq width]
    exact Interval.contains_unary valid operator (admissible.bits_eval operand) (h.eval valid)
  | binary dst operator lhs rhs =>
    have validLeft : Width.isValid lhs.bits := sorted.read (by simp [operandsRead])
    have validRight : Width.isValid rhs.bits := sorted.read (by simp [operandsRead])
    have agree := sorted.2
    simp only [sortsAgree, Bool.and_eq_true, Bool.or_eq_true, decide_eq_true_eq] at agree
    obtain ⟨result, computed, rfl⟩ := step
    refine h.set admissible (by rw [Interval.bits_binary, admissible.bits_eval, agree.1]) ?_
    rw [State.toInt_signExtend_of_eq agree.1]
    exact Interval.contains_binary validLeft operator agree.2 (admissible.bits_eval lhs)
      (admissible.inside_eval lhs).representable (h.eval validLeft) (h.eval validRight) computed
  | cast dst src =>
    have valid : Width.isValid dst.bits := sorted.written (List.mem_singleton_self _)
    subst step
    refine h.set admissible (Interval.bits_cast _ _) ?_
    rw [State.toInt_signExtend valid]
    exact Interval.contains_cast valid (h.eval (sorted.read (List.mem_singleton_self _)))
  | arrayLoad dst index length =>
    obtain ⟨element, rfl⟩ := step
    exact h.forget admissible (sorted.written (List.mem_singleton_self _)) element
  | call dst target arguments =>
    cases dst with
    | none =>
      subst step
      exact h
    | some dst =>
      obtain ⟨result, allowed, rfl⟩ := step
      exact h.setResult admissible (sorted.written (List.mem_singleton_self _))
        (fun a mem => sorted.read mem) allowed
  | unsupported mnemonic writes =>
    exact h.forgetAll admissible (fun slot mem => sorted.written mem) step
  | branch condition | switch scrutinee | arrayStore index value length | ret value | nop =>
    subst step
    exact h

theorem Condition.holds_negate_iff {condition : Condition} {σ : Store} :
    condition.negate.Holds σ ↔ ¬condition.Holds σ := by
  unfold Holds negate
  simp [Comparison.holds_negate]

/-- A default edge is taken when the scrutinee is in no case of the point. -/
theorem FlowGraph.takes_switchDefault_iff_notMem {g : FlowGraph} (c : g.graph.Consistent)
    {edge : Edge} (head : edge.head ∈ g.graph.vertices) (kind : edge.kind = .switchDefault)
    {scrutinee : Operand} {σ : Store} :
    g.Takes (.switch scrutinee) edge σ ↔ (scrutinee.read σ).toInt ∉ g.caseSet edge.head := by
  rw [takes_switchDefault kind, mem_caseSet c head]
  push Not
  rfl

/-- A described store that takes an edge is described by the state along it. -/
theorem FlowGraph.exists_along_of_takes {g : FlowGraph} (c : g.graph.Consistent)
    {operation : Operation} (sorted : operation.WellSorted) {edge : Edge}
    (head : edge.head ∈ g.graph.vertices) {s : State} {σ : Store} (h : s.Describes σ)
    (admissible : s.Admissible) (taken : g.Takes operation edge σ) :
    ∃ s', g.along operation edge s = some s' ∧ s'.Describes σ := by
  unfold along
  split
  · exact h.exists_assume admissible (of_decide_eq_true sorted.2)
      (sorted.read (by simp [Operation.operandsRead])) ((takes_branchTrue ‹_›).1 taken)
  · exact h.exists_assume admissible (of_decide_eq_true sorted.2)
      (sorted.read (by simp [Operation.operandsRead, Condition.negate]))
      (Condition.holds_negate_iff.2 ((takes_branchFalse ‹_›).1 taken))
  · exact h.exists_assumeCase admissible (sorted.read (List.mem_singleton_self _))
      ((takes_switchCase ‹_›).1 taken)
  · exact h.exists_assumeDefault admissible (sorted.read (List.mem_singleton_self _))
      ((takes_switchDefault_iff_notMem c head ‹_›).1 taken)
  · exact ⟨s, rfl, h⟩

end RangeFlow
