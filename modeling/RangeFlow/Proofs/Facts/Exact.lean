import RangeFlow.Proofs.Facts.Describes

/-!
# Exactness of tests

A tidy state describes a store with any values that two operands may have
(`State.Tidy.exists_describes`), so a test that leaves a state is passed by some described store
(`FlowGraph.exists_takes_of_along`).
-/

namespace RangeFlow

namespace State

/-! ## Stores that pass a test -/

/-- A value for every slot: `x` for the aliases of an operand, `y` for those of another, and the
least possible one for all other slots. -/
def choose (s : State) (lhs rhs : Operand) (x y : Int) (slot : Slot) : Int :=
  if s.areAliased lhs (.slot slot) then x
  else if s.areAliased rhs (.slot slot) then y
  else (s.value slot).lo?.getD 0

section Choose

variable {s : State} {lhs rhs : Operand} {x y : Int} (h : s.Tidy)
  (hx : (s.eval lhs).contains x) (hy : (s.eval rhs).contains y)
include h

theorem Tidy.eval_of_areAliased {operand : Operand} {slot : Slot}
    (aliased : s.areAliased operand (.slot slot) = true) : s.eval operand = s.value slot := by
  obtain ⟨z, _, rfl, ⟨⟩, same⟩ := (areAliased_iff h.disjoint).1 aliased
  exact h.uniform.value same

include hx hy in
theorem Tidy.contains_choose {slot : Slot} (valid : Width.isValid slot.bits) :
    (s.value slot).contains (s.choose lhs rhs x y slot) := by
  unfold choose
  split_ifs with left right
  · rwa [← h.eval_of_areAliased left]
  · rwa [← h.eval_of_areAliased right]
  · have proper : (s.eval (.slot slot)).Proper := h.proper_eval valid
    obtain ⟨lo, found, hlo⟩ := proper.exists_lo
    change (s.value slot).lo? = _ at found
    rwa [found, Option.getD_some]

theorem Tidy.areAliased_congr (operand : Operand) {u v : Slot} (same : s.aliases.Same u v) :
    s.areAliased operand (.slot u) = s.areAliased operand (.slot v) := by
  have disjoint := h.disjoint
  rw [Bool.eq_iff_iff, areAliased_iff disjoint, areAliased_iff disjoint]
  constructor
  · rintro ⟨z, _, rfl, ⟨⟩, hz⟩
    exact ⟨z, v, rfl, rfl, hz.trans disjoint same⟩
  · rintro ⟨z, _, rfl, ⟨⟩, hz⟩
    exact ⟨z, u, rfl, rfl, hz.trans disjoint same.symm⟩

theorem Tidy.choose_congr {u v : Slot} (same : s.aliases.Same u v) :
    s.choose lhs rhs x y u = s.choose lhs rhs x y v := by
  unfold choose
  rw [h.areAliased_congr lhs same, h.areAliased_congr rhs same, h.uniform.value same]

include hx hy in
/-- A tidy state describes a store in which two operands have any values that they may have,
as long as these are equal for aliases. -/
theorem Tidy.exists_describes (validLeft : Width.isValid lhs.bits)
    (validRight : Width.isValid rhs.bits) (agree : s.areAliased lhs rhs = true → x = y) :
    ∃ σ, s.Describes σ ∧ (lhs.read σ).toInt = x ∧ (rhs.read σ).toInt = y := by
  have disjoint := h.disjoint
  have toInt {slot : Slot} (valid : Width.isValid slot.bits) :
      (BitVec.ofInt slot.bits (s.choose lhs rhs x y slot)).toInt = s.choose lhs rhs x y slot := by
    have held := (h.value slot).1.holds (h.contains_choose hx hy valid)
    rw [(h.value slot).2.2] at held
    rw [Width.toInt_ofInt valid, Width.wrap_of_holds valid held]
  have self (slot : Slot) : s.areAliased (.slot slot) (.slot slot) = true :=
    (areAliased_iff disjoint).2 ⟨slot, slot, rfl, rfl, .refl _ _⟩
  refine ⟨fun slot => BitVec.ofInt slot.bits (s.choose lhs rhs x y slot), ⟨?_, ?_⟩, ?_, ?_⟩
  · intro slot valid
    rw [toInt valid]
    exact h.contains_choose hx hy valid
  · intro u v validU validV same
    rw [toInt validU, toInt validV, h.choose_congr same]
  · cases lhs with
    | slot slot =>
      refine (toInt validLeft).trans ?_
      rw [choose, if_pos (self slot)]
    | constant constant =>
      exact (Width.toInt_ofInt validLeft _).trans ((Interval.contains_constant validLeft).1 hx).symm
  · cases rhs with
    | slot slot =>
      refine (toInt validRight).trans ?_
      unfold choose
      split_ifs with left
      · exact agree left
      · rfl
      · exact absurd (self slot) ‹_›
    | constant constant =>
      exact (Width.toInt_ofInt validRight _).trans
        ((Interval.contains_constant validRight).1 hy).symm

end Choose

section Tests

variable {s : State} (h : s.Tidy)
include h

/-- A condition that leaves a state holds in some store. -/
theorem Tidy.exists_holds_of_assume {condition : Condition}
    (width : condition.lhs.bits = condition.rhs.bits) (valid : Width.isValid condition.lhs.bits)
    {s' : State} (result : s.assume condition = some s') :
    ∃ σ, s.Describes σ ∧ condition.Holds σ := by
  have validRight : Width.isValid condition.rhs.bits := width ▸ valid
  have left : (s.eval condition.lhs).Proper := h.proper_eval valid
  have right : (s.eval condition.rhs).Proper := h.proper_eval validRight
  rcases assume_cases result with ⟨aliased, reflexive, -⟩ | ⟨apart, lhs, rfl, full, -⟩
  · -- Aliases have the same interval, so any value of it will do.
    obtain ⟨x, hx⟩ := left.1.exists_contains left.2
    have same : s.eval condition.lhs = s.eval condition.rhs := by
      obtain ⟨u, v, hu, hv, -⟩ := (areAliased_iff h.disjoint).1 aliased
      rw [hv] at aliased ⊢
      exact h.eval_of_areAliased aliased
    obtain ⟨σ, described, hl, hr⟩ :=
      h.exists_describes hx (same ▸ hx) valid validRight fun _ => rfl
    exact ⟨σ, described, by rw [Condition.Holds, hl, hr, Comparison.holds_self, reflexive]⟩
  · obtain ⟨x, y, hx, hy, holds⟩ := Interval.exists_holds_of_refine left.1 right.1
      (by rw [h.bits_eval, h.bits_eval, width]) full.1
    obtain ⟨σ, described, hl, hr⟩ := h.exists_describes hx hy valid validRight fun aliased => by
      rw [aliased] at apart
      cases apart
    exact ⟨σ, described, by rw [Condition.Holds, hl, hr]; exact holds⟩

variable {scrutinee : Operand} {values : CaseSet} (valid : Width.isValid scrutinee.bits)
include valid

/-- Whatever value the scrutinee may have, it has in some store. -/
theorem Tidy.exists_read {x : Int} (hx : (s.eval scrutinee).contains x) :
    ∃ σ, s.Describes σ ∧ (scrutinee.read σ).toInt = x := by
  obtain ⟨σ, described, read, -⟩ := h.exists_describes hx hx valid valid fun _ => rfl
  exact ⟨σ, described, read⟩

omit valid in
theorem Tidy.exists_store : ∃ σ, s.Describes σ := by
  have held : (s.eval (.constant ⟨0, 1⟩)).contains 0 := by
    change (Interval.constant 1 0).contains 0
    decide
  obtain ⟨σ, described, -⟩ := h.exists_read (by rfl) held
  exact ⟨σ, described⟩

theorem Tidy.exists_mem_of_assumeCase {s' : State}
    (result : s.assumeCase scrutinee values = some s') :
    ∃ σ, s.Describes σ ∧ (scrutinee.read σ).toInt ∈ values := by
  obtain ⟨lo, mem, held, -⟩ := assumeCase_cases result
  obtain ⟨σ, described, read⟩ := h.exists_read valid held
  exact ⟨σ, described, read ▸ mem⟩

theorem Tidy.exists_notMem_of_assumeDefault {s' : State}
    (result : s.assumeDefault scrutinee values = some s') :
    ∃ σ, s.Describes σ ∧ (scrutinee.read σ).toInt ∉ values := by
  have full := (assumeDefault_cases result).1
  obtain ⟨x, held, other⟩ := exists_contains_of_trim (h.proper_eval valid).1 full
  obtain ⟨σ, described, read⟩ := h.exists_read valid held
  exact ⟨σ, described, read ▸ other⟩

end Tests

end State

/-- An edge with a state is taken by some described store. -/
theorem FlowGraph.exists_takes_of_along {g : FlowGraph} (c : g.graph.Consistent)
    {operation : Operation} (sorted : operation.WellSorted) {edge : Edge}
    (head : edge.head ∈ g.graph.vertices) {s s' : State} (h : s.Tidy)
    (result : g.along operation edge s = some s') :
    ∃ σ, s.Describes σ ∧ g.Takes operation edge σ := by
  unfold along at result
  split at result
  · obtain ⟨σ, described, holds⟩ := h.exists_holds_of_assume (of_decide_eq_true sorted.2)
      (sorted.read (by simp [Operation.operandsRead])) result
    exact ⟨σ, described, (takes_branchTrue ‹_›).2 holds⟩
  · rename_i condition _
    have width : condition.negate.lhs.bits = condition.negate.rhs.bits := of_decide_eq_true sorted.2
    have valid : Width.isValid condition.negate.lhs.bits :=
      sorted.read (by simp [Operation.operandsRead, Condition.negate])
    obtain ⟨σ, described, holds⟩ := h.exists_holds_of_assume width valid result
    exact ⟨σ, described, (takes_branchFalse ‹_›).2 (Condition.holds_negate_iff.1 holds)⟩
  · obtain ⟨σ, described, mem⟩ :=
      h.exists_mem_of_assumeCase (sorted.read (List.mem_singleton_self _)) result
    exact ⟨σ, described, (takes_switchCase ‹_›).2 mem⟩
  · obtain ⟨σ, described, other⟩ :=
      h.exists_notMem_of_assumeDefault (sorted.read (List.mem_singleton_self _)) result
    exact ⟨σ, described, (takes_switchDefault_iff_notMem c head ‹_›).2 other⟩
  · rename_i onTrue onFalse onCase onDefault
    obtain ⟨σ, described⟩ := h.exists_store
    exact ⟨σ, described, takes_of_undecided onTrue onFalse onCase onDefault⟩

/-- An edge has no state exactly when no described store takes it. -/
theorem FlowGraph.along_eq_none_iff {g : FlowGraph} (c : g.graph.Consistent)
    {operation : Operation} (sorted : operation.WellSorted) {edge : Edge}
    (head : edge.head ∈ g.graph.vertices) {s : State} (h : s.Tidy) :
    g.along operation edge s = none ↔ ∀ σ, s.Describes σ → ¬g.Takes operation edge σ := by
  constructor
  · intro dead σ described taken
    obtain ⟨s', result, -⟩ := exists_along_of_takes c sorted head described h.admissible taken
    rw [dead] at result
    cases result
  · intro never
    cases result : g.along operation edge s with
    | none => rfl
    | some s' =>
      obtain ⟨σ, described, taken⟩ := exists_takes_of_along c sorted head h result
      exact absurd taken (never σ described)

end RangeFlow
