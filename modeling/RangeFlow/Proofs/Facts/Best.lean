import RangeFlow.Proofs.Facts.Exact
import RangeFlow.Proofs.Facts.Monotone
import RangeFlow.Proofs.Interval.Hull

/-!
# Tests are the best abstraction

A state is best for some stores (`State.BestFor`) if it describes all of them, and if it keeps for each
slot the smallest interval of the values that the slot has in them. What a test leaves of a tidy
state is best for the stores that pass it (`Tidy.bestFor_assume` and its like): the bounds of a
slot that the test reads come with a value of the other side, and every other slot takes all of its
values whatever the test reads.

The results are put together for the edges of a graph in `FlowGraph.bestFor_along`, and
`FlowGraph.value_along_of_apart` says which slots an edge leaves alone.
-/

namespace RangeFlow

namespace State

variable {s s' : State} {slot z : Slot} {σ : Store}

/-- The values of a slot in some stores. -/
def valuesIn (stores : Set Store) (slot : Slot) : Set Int := {x | ∃ σ ∈ stores, (σ slot).toInt = x}

/-- A state that describes some stores, with the smallest interval for every slot. -/
structure BestFor (s : State) (stores : Set Store) : Prop where
  describes : ∀ σ ∈ stores, s.Describes σ
  hull : ∀ slot : Slot, Width.isValid slot.bits → (s.value slot).IsHull (valuesIn stores slot)

/-- A state is best for stores that it describes, if every slot lies in an interval whose bounds the
slot takes in some of them. -/
theorem Tidy.bestFor (h : s.Tidy) {stores : Set Store} (describes : ∀ σ ∈ stores, s.Describes σ)
    (attained : ∀ slot : Slot, Width.isValid slot.bits →
      ∃ k, (s.value slot).isSubset k ∧ k.EndsIn (valuesIn stores slot)) : s.BestFor stores where
  describes := describes
  hull slot valid := by
    obtain ⟨normal, -, width⟩ := h.value slot
    obtain ⟨k, below, ends⟩ := attained slot valid
    refine .of_endsIn (Interval.canonical_iff.2 ⟨width.symm ▸ valid, normal⟩) ?_ below ends
    rintro _ ⟨σ, mem, rfl⟩
    exact (describes σ mem).value valid

/-! ## Slots that a test does not read -/

/-- A store with another value for a slot and its aliases. -/
def reassign (s : State) (slot : Slot) (value : Int) (σ : Store) : Store := fun z =>
  if s.areAliased (.slot z) (.slot slot) then BitVec.ofInt z.bits value else σ z

theorem read_reassign {operand : Operand} (apart : s.areAliased operand (.slot slot) = false)
    (value : Int) : operand.read (s.reassign slot value σ) = operand.read σ := by
  cases operand with
  | slot z =>
    change s.reassign slot value σ z = σ z
    rw [reassign, apart, if_neg Bool.false_ne_true]
  | constant constant => rfl

theorem Tidy.areAliased_self (h : s.Tidy) (slot : Slot) :
    s.areAliased (.slot slot) (.slot slot) = true :=
  (areAliased_iff h.disjoint).2 ⟨slot, slot, rfl, rfl, .refl _ _⟩

theorem Tidy.toInt_reassign (h : s.Tidy) (valid : Width.isValid slot.bits) {value : Int}
    (held : (s.value slot).contains value) (aliased : s.areAliased (.slot z) (.slot slot) = true) :
    (s.reassign slot value σ z).toInt = value := by
  obtain ⟨_, _, ⟨⟩, ⟨⟩, same⟩ := (areAliased_iff h.disjoint).1 aliased
  obtain ⟨normal, -, width⟩ := h.value slot
  have fits : Width.Holds z.bits value := by
    rw [(h.uniform _ _ same).1, ← width]
    exact normal.holds held
  have validZ : Width.isValid z.bits := (h.uniform _ _ same).1 ▸ valid
  rw [reassign, aliased, if_pos rfl, Width.toInt_ofInt validZ, Width.wrap_of_holds validZ fits]

/-- A slot and its aliases may be given any value of their interval. -/
theorem Tidy.describes_reassign (h : s.Tidy) (described : s.Describes σ)
    (valid : Width.isValid slot.bits) {value : Int} (held : (s.value slot).contains value) :
    s.Describes (s.reassign slot value σ) := by
  have disjoint := h.disjoint
  refine ⟨fun {z} validZ => ?_, fun {x y} validX validY same => ?_⟩
  · cases aliased : s.areAliased (.slot z) (.slot slot) with
    | true =>
      rw [h.toInt_reassign valid held aliased]
      have equal : s.value z = s.value slot := h.eval_of_areAliased aliased
      rwa [equal]
    | false =>
      rw [reassign, aliased, if_neg Bool.false_ne_true]
      exact described.value validZ
  · have together : s.areAliased (.slot x) (.slot slot) = s.areAliased (.slot y) (.slot slot) := by
      rw [Bool.eq_iff_iff, areAliased_iff disjoint, areAliased_iff disjoint]
      constructor
      · rintro ⟨_, _, ⟨⟩, ⟨⟩, hx⟩
        exact ⟨y, slot, rfl, rfl, same.symm.trans disjoint hx⟩
      · rintro ⟨_, _, ⟨⟩, ⟨⟩, hy⟩
        exact ⟨x, slot, rfl, rfl, same.trans disjoint hy⟩
    cases aliased : s.areAliased (.slot y) (.slot slot) with
    | true =>
      rw [h.toInt_reassign valid held aliased, h.toInt_reassign valid held (together.trans aliased)]
    | false =>
      rw [reassign, reassign, aliased, together.trans aliased, if_neg Bool.false_ne_true,
        if_neg Bool.false_ne_true]
      exact described.same validX validY same

/-- A slot apart from what a test reads takes the bounds of its interval in stores that pass it. -/
theorem Tidy.endsIn_of_apart (h : s.Tidy) {P : Store → Prop}
    (operands : List Operand)
    (reads : ∀ {σ σ' : Store}, (∀ operand ∈ operands, operand.read σ' = operand.read σ) → P σ → P σ')
    (passed : ∃ σ, s.Describes σ ∧ P σ) (valid : Width.isValid slot.bits)
    (apart : ∀ operand ∈ operands, s.areAliased operand (.slot slot) = false) :
    (s.value slot).EndsIn (valuesIn {σ | s.Describes σ ∧ P σ} slot) := by
  obtain ⟨σ, described, holds⟩ := passed
  refine (h.value slot).1.endsIn.mono fun value held => ?_
  refine ⟨s.reassign slot value σ, ⟨h.describes_reassign described valid held, ?_⟩,
    h.toInt_reassign valid held (h.areAliased_self slot)⟩
  exact reads (fun operand mem => read_reassign (apart operand mem) value) holds

/-! ## Slots that a test reads -/

/-- The aliases of an operand have its values. -/
theorem Tidy.endsIn_of_aliased (h : s.Tidy) {P : Store → Prop} {operand : Operand}
    (valid : Width.isValid slot.bits) (aliased : s.areAliased operand (.slot slot) = true)
    {k : Interval}
    (ends : k.EndsIn {x | ∃ σ, s.Describes σ ∧ (operand.read σ).toInt = x ∧ P σ}) :
    k.EndsIn (valuesIn {σ | s.Describes σ ∧ P σ} slot) := by
  obtain ⟨z, _, rfl, ⟨⟩, same⟩ := (areAliased_iff h.disjoint).1 aliased
  refine ends.mono fun x ⟨σ, described, read, holds⟩ => ⟨σ, ⟨described, holds⟩, ?_⟩
  have validZ : Width.isValid z.bits := (h.uniform _ _ same).1 ▸ valid
  rw [← described.same validZ valid same, ← read]
  rfl

/-- A narrowed state keeps for the aliases of an operand what it keeps for the operand. -/
theorem Tidy.value_isSubset_of_aliased (h : s.Tidy) (h' : s'.Tidy) (below : s'.Le s)
    {operand : Operand} {k : Interval}
    (inside : ∀ slot, operand = .slot slot → (s'.value slot).isSubset k)
    (aliased : s.areAliased operand (.slot slot) = true) : (s'.value slot).isSubset k := by
  obtain ⟨z, _, rfl, ⟨⟩, same⟩ := (areAliased_iff h.disjoint).1 aliased
  rw [← h'.uniform.value (below.same same)]
  exact inside z rfl

/-! ## Tests -/

/-- A tidy state is best for the stores that it describes. -/
theorem Tidy.bestFor_self (h : s.Tidy) : s.BestFor {σ | s.Describes σ} := by
  refine h.bestFor (fun σ described => described) fun slot valid => ?_
  obtain ⟨σ, described⟩ := h.exists_store
  refine ⟨s.value slot, Interval.isSubset_refl _, ?_⟩
  have ends := h.endsIn_of_apart (P := fun _ => True) [] (fun _ _ => trivial)
    ⟨σ, described, trivial⟩ valid (by simp)
  simpa only [and_true] using ends

section Conditions

variable {condition : Condition} (h : s.Tidy)
  (width : condition.lhs.bits = condition.rhs.bits) (valid : Width.isValid condition.lhs.bits)
include h width valid

/-- Sides that are known to be equal compare in every described store as every value with itself. -/
theorem Tidy.holds_of_areAliased
    (aliased : s.areAliased condition.lhs condition.rhs = true)
    (reflexive : condition.comparison.isReflexive = true) (described : s.Describes σ) :
    condition.Holds σ := by
  obtain ⟨x, y, hx, hy, same⟩ := (areAliased_iff h.disjoint).1 aliased
  have validRight : Width.isValid condition.rhs.bits := width ▸ valid
  rw [hx] at valid
  rw [hy] at validRight
  rw [Condition.Holds, hx, hy]
  change condition.comparison.holds (σ x).toInt (σ y).toInt
  rw [described.same valid validRight same, Comparison.holds_self, reflexive]

/-- Sides that are not known to be equal have any two values that compare in some store. -/
theorem Tidy.exists_holds_pair
    (apart : s.areAliased condition.lhs condition.rhs = false) {x y : Int}
    (hx : (s.eval condition.lhs).contains x) (hy : (s.eval condition.rhs).contains y)
    (holds : condition.comparison.holds x y) :
    ∃ σ, s.Describes σ ∧ (condition.lhs.read σ).toInt = x ∧ (condition.rhs.read σ).toInt = y ∧
      condition.Holds σ := by
  obtain ⟨σ, described, hl, hr⟩ := h.exists_describes hx hy valid (width ▸ valid) fun aliased => by
    rw [apart] at aliased
    cases aliased
  exact ⟨σ, described, hl, hr, by rwa [Condition.Holds, hl, hr]⟩

theorem Tidy.bestFor_assume (result : s.assume condition = some s') :
    s'.BestFor {σ | s.Describes σ ∧ condition.Holds σ} := by
  have left : (s.eval condition.lhs).Canonical := (h.proper_eval valid).1
  have right : (s.eval condition.rhs).Canonical := (h.proper_eval (width ▸ valid)).1
  have bits : (s.eval condition.lhs).bits = (s.eval condition.rhs).bits := by
    rw [h.bits_eval, h.bits_eval, width]
  have tidy := h.assume result
  have passed := h.exists_holds_of_assume width valid result
  have describes : ∀ σ ∈ {σ | s.Describes σ ∧ condition.Holds σ}, s'.Describes σ := by
    rintro σ ⟨described, holds⟩
    obtain ⟨_, result', described'⟩ :=
      described.exists_assume h.admissible width valid holds
    cases result.symm.trans result'
    exact described'
  rcases assume_cases result with ⟨aliased, reflexive, rfl⟩ |
    ⟨apart, lhs, hlhs, -, s₁, first, s₂, second, result⟩
  · have all : {σ | s'.Describes σ ∧ condition.Holds σ} = {σ | s'.Describes σ} :=
      Set.ext fun σ => ⟨And.left, fun described =>
        ⟨described, h.holds_of_areAliased width valid aliased reflexive described⟩⟩
    rw [all]
    exact h.bestFor_self
  · obtain ⟨below, inLeft, inRight, -⟩ := h.of_assume width hlhs first second result
    subst hlhs
    refine tidy.bestFor describes fun slot validSlot => ?_
    cases aliasedLeft : s.areAliased condition.lhs (.slot slot) with
    | true =>
      refine ⟨_, h.value_isSubset_of_aliased tidy below inLeft aliasedLeft,
        h.endsIn_of_aliased validSlot aliasedLeft ?_⟩
      refine (Interval.endsIn_refine left right bits _).mono ?_
      rintro x ⟨hx, y, hy, holds⟩
      obtain ⟨σ, described, hl, -, passes⟩ := h.exists_holds_pair width valid apart hx hy holds
      exact ⟨σ, described, hl, passes⟩
    | false =>
      cases aliasedRight : s.areAliased condition.rhs (.slot slot) with
      | true =>
        refine ⟨_, h.value_isSubset_of_aliased tidy below inRight aliasedRight,
          h.endsIn_of_aliased validSlot aliasedRight ?_⟩
        refine (Interval.endsIn_refine_swap left right bits _).mono ?_
        rintro y ⟨hy, x, hx, holds⟩
        obtain ⟨σ, described, -, hr, passes⟩ := h.exists_holds_pair width valid apart hx hy holds
        exact ⟨σ, described, hr, passes⟩
      | false =>
        refine ⟨s.value slot, below.value slot,
          h.endsIn_of_apart [condition.lhs, condition.rhs] (fun {σ σ'} reads holds => ?_)
            passed validSlot (by simp [aliasedLeft, aliasedRight])⟩
        rw [Condition.Holds, reads condition.lhs (by simp), reads condition.rhs (by simp)]
        exact holds

end Conditions

/-- What is left by narrowing an operand to an interval is best for the stores that pass a test of the
operand, if the bounds of the interval pass it. -/
theorem Tidy.bestFor_narrow? (h : s.Tidy) {operand : Operand}
    (valid : Width.isValid operand.bits) {test : Int → Prop} {k : Interval}
    (width : operand.bits = k.bits) (result : s.narrow? operand k = some s')
    (describes : ∀ σ, s.Describes σ → test (operand.read σ).toInt → s'.Describes σ)
    (passed : ∃ σ, s.Describes σ ∧ test (operand.read σ).toInt)
    (ends : k.EndsIn {x | (s.eval operand).contains x ∧ test x}) :
    s'.BestFor {σ | s.Describes σ ∧ test (operand.read σ).toInt} := by
  have tidy := h.narrow? result
  have below := h.le_of_narrow? result
  refine tidy.bestFor (fun σ mem => describes σ mem.1 mem.2) fun slot validSlot => ?_
  cases aliased : s.areAliased operand (.slot slot) with
  | true =>
    refine ⟨k, h.value_isSubset_of_aliased tidy below
      (fun slot here => h.value_isSubset_of_narrow? result width here) aliased,
      h.endsIn_of_aliased validSlot aliased (ends.mono ?_)⟩
    rintro x ⟨hx, passes⟩
    obtain ⟨σ, described, read⟩ := h.exists_read valid hx
    exact ⟨σ, described, read, by rwa [read]⟩
  | false =>
    refine ⟨s.value slot, below.value slot,
      h.endsIn_of_apart (P := fun σ => test (operand.read σ).toInt) [operand]
        (fun {σ σ'} reads passes => ?_) passed validSlot (by simpa using aliased)⟩
    rwa [reads operand (List.mem_singleton_self _)]

theorem Tidy.bestFor_assumeCase (h : s.Tidy) {scrutinee : Operand} {values : CaseSet}
    (valid : Width.isValid scrutinee.bits) (result : s.assumeCase scrutinee values = some s') :
    s'.BestFor {σ | s.Describes σ ∧ (scrutinee.read σ).toInt ∈ values} := by
  obtain ⟨lo, first, lowest, hi, last, highest, narrowed⟩ := assumeCase_cases result
  refine h.bestFor_narrow? valid (by rw [Interval.bits_meet, h.bits_eval]) narrowed
    (fun σ described mem => ?_) (h.exists_mem_of_assumeCase valid result) ?_
  · obtain ⟨_, result', described'⟩ := described.exists_assumeCase h.admissible valid mem
    cases result.symm.trans result'
    exact described'
  · refine (Interval.endsIn_meet_between (h.normal_eval _) lowest highest).mono ?_
    rintro x (rfl | rfl)
    · exact ⟨lowest, first⟩
    · exact ⟨highest, last⟩

theorem Tidy.bestFor_assumeDefault (h : s.Tidy) {scrutinee : Operand} {values : CaseSet}
    (valid : Width.isValid scrutinee.bits) (result : s.assumeDefault scrutinee values = some s') :
    s'.BestFor {σ | s.Describes σ ∧ (scrutinee.read σ).toInt ∉ values} := by
  refine h.bestFor_narrow? valid (by rw [bits_trim, h.bits_eval])
    (assumeDefault_cases result).2 (fun σ described other => ?_)
    (h.exists_notMem_of_assumeDefault valid result)
    (Interval.endsIn_trim (h.proper_eval valid).1 values)
  obtain ⟨_, result', described'⟩ := described.exists_assumeDefault h.admissible valid other
  cases result.symm.trans result'
  exact described'

/-! ## Slots that are kept -/

theorem areAliased_congr_aliases {t : State} (same : s.aliases = t.aliases) (lhs rhs : Operand) :
    s.areAliased lhs rhs = t.areAliased lhs rhs := by
  unfold areAliased
  rw [same]

theorem aliases_narrow? {operand : Operand} {i : Interval}
    (result : s.narrow? operand i = some s') : s'.aliases = s.aliases := by
  rcases narrow?_cases result with ⟨_, -, narrowed⟩ | ⟨-, rfl⟩
  · exact narrowed.aliases
  · rfl

theorem Tidy.value_narrowed_of_apart (h : s.Tidy) {i : Interval} (narrowed : s.Narrowed slot i s')
    (apart : s.areAliased (.slot slot) (.slot z) = false) : s'.value z = s.value z := by
  rw [h.value_narrowed narrowed, if_neg fun mem => ?_]
  have aliased := (areAliased_iff h.disjoint).2
    ⟨slot, z, rfl, rfl, (AliasClasses.mem_classOf h.disjoint).1 mem⟩
  rw [apart] at aliased
  cases aliased

theorem Tidy.value_narrow?_of_apart (h : s.Tidy) {operand : Operand} {i : Interval}
    (result : s.narrow? operand i = some s')
    (apart : s.areAliased operand (.slot z) = false) : s'.value z = s.value z := by
  rcases narrow?_cases result with ⟨slot, rfl, narrowed⟩ | ⟨-, rfl⟩
  · exact h.value_narrowed_of_apart narrowed apart
  · rfl

theorem Tidy.value_equate?_of_apart (h : s.Tidy) {lhs rhs : Operand}
    (result : s.equate? lhs rhs = some s') (left : s.areAliased lhs (.slot z) = false)
    (right : s.areAliased rhs (.slot z) = false) : s'.value z = s.value z := by
  rcases equate?_cases result with ⟨x, y, rfl, rfl, equated⟩ | ⟨-, rfl⟩
  · obtain ⟨s₁, s₂, first, second, rfl⟩ := equate_cases equated
    rw [areAliased_congr_aliases first.aliases.symm] at right
    have kept : s₂.value z = s.value z :=
      ((h.narrowed first).value_narrowed_of_apart second right).trans
        (h.value_narrowed_of_apart first left)
    split_ifs
    · exact kept
    · exact kept
  · rfl

theorem Tidy.value_assume_of_apart (h : s.Tidy) {condition : Condition}
    (result : s.assume condition = some s')
    (left : s.areAliased condition.lhs (.slot z) = false)
    (right : s.areAliased condition.rhs (.slot z) = false) : s'.value z = s.value z := by
  rcases assume_cases result with ⟨-, -, rfl⟩ | ⟨-, lhs, -, -, s₁, first, s₂, second, result⟩
  · rfl
  · have h₁ := h.narrow? first
    have aliases := (aliases_narrow? second).trans (aliases_narrow? first)
    have kept : s₂.value z = s.value z := by
      rw [areAliased_congr_aliases (aliases_narrow? first).symm] at right
      exact (h₁.value_narrow?_of_apart second right).trans (h.value_narrow?_of_apart first left)
    split_ifs at result
    · rw [areAliased_congr_aliases aliases.symm] at left right
      exact ((h₁.narrow? second).value_equate?_of_apart result left right).trans kept
    · obtain rfl := Option.some.inj result
      exact kept

end State

/-- An edge changes nothing about slots that the operation at its head does not read. -/
theorem FlowGraph.value_along_of_apart {g : FlowGraph} {operation : Operation} {edge : Edge}
    {s s' : State} (h : s.Tidy) (result : g.along operation edge s = some s') {slot : Slot}
    (apart : ∀ operand ∈ operation.operandsRead, s.areAliased operand (.slot slot) = false) :
    s'.value slot = s.value slot := by
  unfold along at result
  split at result
  · rename_i condition _
    exact h.value_assume_of_apart result (apart condition.lhs (by simp [Operation.operandsRead]))
      (apart condition.rhs (by simp [Operation.operandsRead]))
  · rename_i condition _
    exact h.value_assume_of_apart result (apart condition.lhs (by simp [Operation.operandsRead]))
      (apart condition.rhs (by simp [Operation.operandsRead]))
  · obtain ⟨_, -, -, _, -, -, narrowed⟩ := State.assumeCase_cases result
    exact h.value_narrow?_of_apart narrowed (apart _ (List.mem_singleton_self _))
  · exact h.value_narrow?_of_apart (State.assumeDefault_cases result).2
      (apart _ (List.mem_singleton_self _))
  · obtain rfl := Option.some.inj result
    rfl

/-- What an edge leaves of a tidy state is best for the described stores that take it. -/
theorem FlowGraph.bestFor_along {g : FlowGraph} (c : g.graph.Consistent) {operation : Operation}
    (sorted : operation.WellSorted) {edge : Edge} (head : edge.head ∈ g.graph.vertices)
    {s s' : State} (h : s.Tidy) (result : g.along operation edge s = some s') :
    s'.BestFor {σ | s.Describes σ ∧ g.Takes operation edge σ} := by
  unfold along at result
  split at result
  · simp only [takes_branchTrue ‹_›]
    exact h.bestFor_assume (of_decide_eq_true sorted.2)
      (sorted.read (by simp [Operation.operandsRead])) result
  · simp only [takes_branchFalse ‹_›, ← Condition.holds_negate_iff]
    exact h.bestFor_assume (of_decide_eq_true sorted.2)
      (sorted.read (by simp [Operation.operandsRead, Condition.negate])) result
  · simp only [takes_switchCase ‹_›]
    exact h.bestFor_assumeCase (sorted.read (List.mem_singleton_self _)) result
  · simp only [takes_switchDefault_iff_notMem c head ‹_›]
    exact h.bestFor_assumeDefault (sorted.read (List.mem_singleton_self _)) result
  · rename_i onTrue onFalse onCase onDefault
    obtain rfl := Option.some.inj result
    simp only [takes_of_undecided onTrue onFalse onCase onDefault, and_true]
    exact h.bestFor_self

end RangeFlow
