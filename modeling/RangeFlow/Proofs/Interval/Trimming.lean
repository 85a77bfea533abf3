import RangeFlow.Facts.Guard
import RangeFlow.Proofs.Interval.Inclusion

/-!
# Leaving out a set of values

`State.trim` takes turns, and each turn leaves out an end of the interval. `Trims` is the loop of
turns that stops only when no end is one of the values: it ends unless its first turn gives the
interval back (`exists_trims_iff`), and where it ends it ends in `trim` (`trims_iff`). Inside the
width a turn leaves out the end itself, so that the loop ends (`trims_of_inside`), keeps every other
value (`contains_trim`) and leaves no end that is one of the values (`bounds_trim`). What a turn
keeps, trimming keeps (`trim_induction`).
-/

namespace RangeFlow.State

open RangeFlow.Interval

open Width (Holds)

variable {values : CaseSet} {i j : Interval}

/-! ## One turn -/

/-- A turn leaves out an end of the interval that is one of the values. -/
theorem trimTurn?_cases (turn : trimTurn? values i = some j) :
    ∃ lo hi value, i.bounds? = some (lo, hi) ∧ (value = lo ∨ value = hi) ∧ value ∈ values ∧
      j = i.refine .ne (.constant i.bits value) := by
  unfold trimTurn? at turn
  split at turn
  · cases turn
  · rename_i lo hi bounds
    split_ifs at turn with least greatest
    · cases turn
      exact ⟨lo, hi, lo, bounds, .inl rfl, least, rfl⟩
    · cases turn
      exact ⟨lo, hi, hi, bounds, .inr rfl, greatest, rfl⟩

/-- There is no turn when the ends are other values. -/
theorem trimTurn?_eq_none_iff :
    trimTurn? values i = none ↔
      ∀ lo hi, i.bounds? = some (lo, hi) → lo ∉ values ∧ hi ∉ values := by
  unfold trimTurn?
  rcases i.bounds? with _ | ⟨lo, hi⟩
  · simp
  · dsimp only
    split_ifs with least greatest
    · simp [least]
    · simp [greatest]
    · simp [least, greatest]

theorem bits_of_trimTurn? (turn : trimTurn? values i = some j) : j.bits = i.bits := by
  obtain ⟨-, -, -, -, -, -, rfl⟩ := trimTurn?_cases turn
  exact bits_refine _ _ _

theorem contains_of_trimTurn? (turn : trimTurn? values i = some j) {x : Int}
    (hx : j.contains x) : i.contains x := by
  obtain ⟨-, -, value, -, -, -, rfl⟩ := trimTurn?_cases turn
  rcases refine_ne_cases i (.constant i.bits value) with same | ⟨_, less⟩ | nothing
  · rwa [same] at hx
  · rw [less] at hx
    exact contains_of_contains_without hx
  · simp [nothing] at hx

/-- A turn that changes the interval brings it inside the width. -/
theorem normal_of_trimTurn? (turn : trimTurn? values i = some j) (moved : j ≠ i) : j.Normal := by
  obtain ⟨-, -, value, -, -, -, rfl⟩ := trimTurn?_cases turn
  rcases refine_ne_cases i (.constant i.bits value) with same | ⟨other, less⟩ | nothing
  · exact absurd same moved
  · rw [less] at moved ⊢
    unfold without at moved ⊢
    split
    · simp_all
    · split_ifs with single least greatest
      · trivial
      · exact normal_between _ _ _
      · exact normal_between _ _ _
      · simp_all
  · rw [nothing]
    trivial

/-- Inside the width the end wraps to itself. -/
theorem trimTurn?_of_inside (inside : i.Inside) (valid : Width.isValid i.bits)
    (turn : trimTurn? values i = some j) :
    ∃ lo hi value, i.bounds? = some (lo, hi) ∧ (value = lo ∨ value = hi) ∧ value ∈ values ∧
      j = i.without value := by
  obtain ⟨lo, hi, value, bounds, anEnd, listed, rfl⟩ := trimTurn?_cases turn
  have ordered := inside _ _ bounds
  have held : Holds i.bits value := by
    rcases anEnd with rfl | rfl
    · exact ⟨by omega, by omega⟩
    · exact ⟨by omega, by omega⟩
  have single : (constant i.bits value).bounds? = some (value, value) := by
    rw [constant, Width.wrap_of_holds valid held]
    exact bounds?_between held.1 held.2 le_rfl
  refine ⟨lo, hi, value, bounds, anEnd, listed, ?_⟩
  rw [refine, bounds, single]
  simp [value?, single]

/-! ## The loop -/

/-- Turn after turn until neither end is one of the values. -/
inductive Trims (values : CaseSet) : Interval → Interval → Prop where
  | done {i : Interval} : trimTurn? values i = none → Trims values i i
  | turn {i j k : Interval} : trimTurn? values i = some j → Trims values j k → Trims values i k

/-- A turn that gives the interval back does so for ever. -/
theorem not_trims_of_trimTurn? (turn : trimTurn? values i = some i) : ¬Trims values i j := by
  intro run
  induction run with
  | done last => simp [last] at turn
  | turn next _ ih =>
    cases next.symm.trans turn
    exact ih turn

/-- No byte is -1000, and what it wraps to, 24, is no end of this interval. -/
example : trimTurn? {-1000} (.range 8 (-1000) 5) = some (.range 8 (-1000) 5) := by decide

theorem trim_of_trimTurn? (turn : trimTurn? values i = some j) (moved : j ≠ i) :
    trim values i = trim values j := by
  rw [trim]
  split <;> rename_i found
  · rw [found] at turn
    cases turn
  · cases found.symm.trans turn
    rw [dif_neg moved]

theorem trim_of_eq_none (last : trimTurn? values i = none) : trim values i = i := by
  rw [trim]
  split <;> rename_i found
  · rfl
  · rw [found] at last
    cases last

/-- What a turn keeps, trimming keeps. -/
theorem trim_induction {motive : Interval → Prop}
    (step : ∀ {i j}, trimTurn? values i = some j → motive i → motive j) (start : motive i) :
    motive (trim values i) := by
  fun_induction trim values i with
  | case1 => exact start
  | case2 => exact start
  | case3 i j turn _ _ ih => exact ih (step turn start)

/-- The loop ends in what is trimmed, and only there. -/
theorem trims_iff : Trims values i j ↔ trim values i = j ∧ trimTurn? values j = none := by
  constructor
  · intro run
    induction run with
    | done last => exact ⟨trim_of_eq_none last, last⟩
    | turn next rest ih =>
      rename_i i j k
      have moved : j ≠ i := by
        rintro rfl
        exact not_trims_of_trimTurn? next rest
      rwa [trim_of_trimTurn? next moved]
  · rintro ⟨rfl, last⟩
    fun_induction trim values i with
    | case1 => exact .done last
    | case2 i turn => simp [turn] at last
    | case3 i j turn _ _ ih => exact .turn turn (ih last)

/-- Inside the width the loop ends. -/
theorem trims_of_inside (inside : i.Inside) (valid : Width.isValid i.bits) :
    Trims values i (trim values i) := by
  fun_induction trim values i with
  | case1 i last => exact .done last
  | case2 i turn =>
    obtain ⟨lo, hi, value, bounds, anEnd, -, same⟩ := trimTurn?_of_inside inside valid turn
    exact absurd same.symm (without_ne bounds anEnd)
  | case3 i j turn moved _ ih =>
    refine .turn turn (ih (normal_of_trimTurn? turn moved).inside ?_)
    rwa [bits_of_trimTurn? turn]

/-- On a valid width only a first turn that gives the interval back keeps the loop from its end. -/
theorem exists_trims_iff (valid : Width.isValid i.bits) :
    (∃ j, Trims values i j) ↔ trimTurn? values i ≠ some i := by
  constructor
  · rintro ⟨j, run⟩ turn
    exact not_trims_of_trimTurn? turn run
  · intro moves
    cases turn : trimTurn? values i with
    | none => exact ⟨i, .done turn⟩
    | some j =>
      have moved : j ≠ i := fun same => moves (same ▸ turn)
      have valid : Width.isValid j.bits := by rwa [bits_of_trimTurn? turn]
      exact ⟨_, .turn turn (trims_of_inside (normal_of_trimTurn? turn moved).inside valid)⟩

/-- Whatever the cases of a switch are, taking turns at trimming its scrutinee comes to an end. -/
def Trimmable (s : State) : Prop :=
  ∀ (scrutinee : Operand) (cases : CaseSet), Width.isValid scrutinee.bits →
    Trims cases (s.eval scrutinee) (trim cases (s.eval scrutinee))

/-! ## What is left -/

@[simp]
theorem bits_trim (values : CaseSet) (i : Interval) : (trim values i).bits = i.bits :=
  trim_induction (motive := fun j => j.bits = i.bits)
    (fun turn same => (bits_of_trimTurn? turn).trans same) rfl

theorem contains_of_contains_trim {x : Int} (hx : (trim values i).contains x) : i.contains x :=
  trim_induction (motive := fun j => j.contains x → i.contains x)
    (fun turn old now => old (contains_of_trimTurn? turn now)) id hx

theorem normal_trim (h : i.Normal) (values : CaseSet) : (trim values i).Normal := by
  refine trim_induction (fun {i j} turn before => ?_) h
  by_cases moved : j = i
  · rwa [moved]
  · exact normal_of_trimTurn? turn moved

theorem canonical_trim (h : i.Canonical) : (trim values i).Canonical :=
  canonical_iff.2 ⟨by simpa using h.isValid, normal_trim h.normal values⟩

/-- Inside the width trimming leaves out nothing but the values. -/
theorem contains_trim (inside : i.Inside) (valid : Width.isValid i.bits) {x : Int}
    (hx : i.contains x) (other : x ∉ values) : (trim values i).contains x := by
  fun_induction trim values i with
  | case1 => exact hx
  | case2 => exact hx
  | case3 i j turn moved _ ih =>
    refine ih (normal_of_trimTurn? turn moved).inside (by rwa [bits_of_trimTurn? turn]) ?_
    obtain ⟨_, _, value, -, -, listed, rfl⟩ := trimTurn?_of_inside inside valid turn
    refine contains_without hx (inside.holds hx) ?_
    rintro rfl
    exact other listed

/-- The bounds of what is trimmed are outside the set. -/
theorem bounds_trim (inside : i.Inside) (valid : Width.isValid i.bits) {lo hi : Int}
    (bounds : (trim values i).bounds? = some (lo, hi)) : lo ∉ values ∧ hi ∉ values :=
  trimTurn?_eq_none_iff.1 (trims_iff.1 (trims_of_inside inside valid)).2 lo hi bounds

/-- What is trimmed leaves something only if there is a value outside the set. -/
theorem exists_contains_of_trim (h : i.Canonical) (full : (trim values i).isBottom = false) :
    ∃ x, i.contains x ∧ x ∉ values := by
  cases bounds : (trim values i).bounds? with
  | none => simp [bounds?_eq_none_iff.1 bounds] at full
  | some pair =>
    have last : (trim values i).contains pair.2 :=
      contains_iff.2 ⟨_, _, bounds, ((canonical_trim h).bounds bounds).2.1, le_rfl⟩
    exact ⟨pair.2, contains_of_contains_trim last,
      (bounds_trim h.normal.inside h.isValid bounds).2⟩

/-- The ends of what is trimmed of an interval are values that trimming a larger one keeps. -/
theorem trim_mono {a b : Interval} (ha : a.Normal) (hb : b.Inside) (valid : Width.isValid b.bits)
    (h : a.isSubset b) (values : CaseSet) : (trim values a).isSubset (trim values b) := by
  have bits := bits_eq_of_isSubset h
  have normal := normal_trim ha values
  have kept {x : Int} (hx : (trim values a).contains x) (other : x ∉ values) :
      (trim values b).contains x :=
    contains_trim hb valid (contains_of_isSubset h (contains_of_contains_trim hx)) other
  refine isSubset_iff.2 ⟨by simpa using bits, fun lo hi bounds => ?_⟩
  obtain ⟨lower, upper⟩ := bounds_trim ha.inside (by rwa [bits]) bounds
  have ordered := (normal.bounds bounds).2.1
  obtain ⟨lo', hi', bounds', least, -⟩ :=
    contains_iff.1 (kept (contains_iff.2 ⟨lo, hi, bounds, le_rfl, ordered⟩) lower)
  obtain ⟨_, _, bounds'', -, greatest⟩ :=
    contains_iff.1 (kept (contains_iff.2 ⟨lo, hi, bounds, ordered, le_rfl⟩) upper)
  cases bounds'.symm.trans bounds''
  exact ⟨lo', hi', bounds', least, greatest⟩

end RangeFlow.State
