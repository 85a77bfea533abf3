import Mathlib
import RangeFlow.Program.Edge

/-!
# Kinds of edges under merging

Kinds of edges are ordered by what merging can make of them: a jump takes in falling through and both
outcomes of a branch, a jump back takes in a jump, and a default takes in cases. Where two kinds can be
merged, the result is the least kind above both (`EdgeKind.isLUB_merge?`). Some pairs with a least kind
above them are refused, so merging is not associative, but no order of merging ends at another kind.
-/

namespace RangeFlow.EdgeKind

/-- Merging can turn an edge of the second kind into one of the first, in any number of steps. -/
def Absorbs (kind : EdgeKind) : EdgeKind → Prop :=
  match kind with
  | sequential | branchTrue | branchFalse => (· = kind)
  | unconditional => fun a => a = unconditional ∨ a = sequential ∨ a = branchTrue ∨ a = branchFalse
  | loopBack => fun a =>
      a = loopBack ∨ a = unconditional ∨ a = sequential ∨ a = branchTrue ∨ a = branchFalse
  | switchCase kept => fun a => ∃ values, a = switchCase values ∧ ∀ value ∈ values, value ∈ kept
  | switchDefault => fun a => a = switchDefault ∨ ∃ values, a = switchCase values

instance : PartialOrder EdgeKind where
  le a b := b.Absorbs a
  le_refl a := by cases a <;> simp [Absorbs]
  le_trans a b c hab hbc := by
    cases c with
    | sequential | branchTrue | branchFalse =>
      obtain rfl : b = _ := hbc
      exact hab
    | unconditional => rcases hbc with rfl | rfl | rfl | rfl <;> simp_all [Absorbs]
    | loopBack => rcases hbc with rfl | rfl | rfl | rfl | rfl <;> simp_all [Absorbs]
    | switchCase kept =>
      obtain ⟨values, rfl, within⟩ := hbc
      obtain ⟨fewer, rfl, within'⟩ := hab
      exact ⟨fewer, rfl, fun value mem => within value (within' value mem)⟩
    | switchDefault =>
      rcases hbc with rfl | ⟨values, rfl⟩
      · exact hab
      · obtain ⟨fewer, rfl, -⟩ := hab
        exact .inr ⟨fewer, rfl⟩
  le_antisymm a b hab hba := by
    cases a <;> cases b <;> simp [Absorbs] at hab hba ⊢
    exact Std.ExtTreeSet.ext_mem fun value => ⟨hab value, hba value⟩

variable {a b c kind : EdgeKind}

theorem absorbs_merge? (h : a.merge? b = some c) : c.Absorbs a ∧ c.Absorbs b := by
  cases a <;> cases b <;> simp [merge?] at h <;> subst h <;> simp +contextual [Absorbs]

theorem absorbs_of_merge? (h : a.merge? b = some c) (ha : kind.Absorbs a) (hb : kind.Absorbs b) :
    kind.Absorbs c := by
  cases a <;> cases b <;> simp [merge?] at h <;> subst h <;> cases kind <;> simp_all [Absorbs]
  rintro value (mem | mem)
  · exact ha value mem
  · exact hb value mem

/-- A merged kind is the least one above both. -/
theorem isLUB_merge? (h : a.merge? b = some c) : IsLUB {a, b} c := by
  refine ⟨?_, fun kind above => ?_⟩
  · rintro _ (rfl | rfl)
    · exact (absorbs_merge? h).1
    · exact (absorbs_merge? h).2
  · exact absorbs_of_merge? h (above (.inl rfl)) (above (.inr rfl))

/-- Merging one more kind into the least one above some kinds. -/
theorem isLUB_insert_of_merge? {kinds : Set EdgeKind} (least : IsLUB kinds a)
    (h : a.merge? b = some c) : IsLUB (insert b kinds) c := by
  obtain ⟨above, below⟩ := isLUB_merge? h
  refine ⟨?_, fun kind bound => ?_⟩
  · rintro kind (rfl | mem)
    · exact above (.inr rfl)
    · exact (least.1 mem).trans (above (.inl rfl))
  · refine below ?_
    rintro _ (rfl | rfl)
    · exact least.2 fun kind mem => bound (.inr mem)
    · exact bound (.inl rfl)

/-- A case kind is merged from case kinds. -/
theorem mem_of_merge? {values : CaseSet} (h : a.merge? b = some (.switchCase values)) {value : Int}
    (mem : value ∈ values) :
    (∃ left, a = .switchCase left ∧ value ∈ left) ∨ ∃ right, b = .switchCase right ∧ value ∈ right := by
  cases a <;> cases b <;> simp [merge?] at h
  subst h
  simpa using mem

theorem merge?_comm (a b : EdgeKind) : a.merge? b = b.merge? a := by
  cases a <;> cases b <;> simp [merge?]
  exact Std.ExtTreeSet.ext_mem fun value => by simp [or_comm]

theorem merge?_self (a : EdgeKind) : a.merge? a = some a := by
  cases a <;> simp [merge?]
  exact Std.ExtTreeSet.ext_mem fun value => by simp

/-- Two ways of merging three kinds agree, where neither is refused. -/
theorem merge?_assoc_of_eq_some {left right : EdgeKind}
    (hl : ((a.merge? b).bind fun ab => ab.merge? c) = some left)
    (hr : ((b.merge? c).bind fun bc => a.merge? bc) = some right) : left = right := by
  obtain ⟨ab, first, hl⟩ := Option.bind_eq_some_iff.1 hl
  obtain ⟨bc, last, hr⟩ := Option.bind_eq_some_iff.1 hr
  rw [merge?_comm] at hr
  have leftLeast := isLUB_insert_of_merge? (isLUB_merge? first) hl
  have rightLeast := isLUB_insert_of_merge? (isLUB_merge? last) hr
  rw [Set.insert_comm, Set.pair_comm c b] at leftLeast
  exact leftLeast.unique rightLeast

end RangeFlow.EdgeKind
