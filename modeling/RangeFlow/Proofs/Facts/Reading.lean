import RangeFlow.Codec.Facts
import RangeFlow.Proofs.Interval.Contents
import RangeFlow.Proofs.Order
import RangeFlow.Proofs.Result

/-!
# States that are read

An interval that is read is canonical (`Interval.canonical_ofJson`), and so are all intervals of a state
that is read (`State.canonical_ofJson`). Of its alias classes nothing is known.
-/

namespace RangeFlow

/-! ## Records -/

namespace Json

section Visit

variable {σ : Type} {visit : σ → String → Json → Except Error σ} {I : σ → Prop}
  (step : ∀ {s s' : σ} {name : String} {json : Json}, I s → visit s name json = .ok s' → I s')
include step

theorem visitMembers_induction {names seen : List String} {members : List (String × Json)} {s r : σ}
    (start : I s) (h : visitMembers names visit seen members s = .ok r) : I r := by
  induction members generalizing seen s with
  | nil => exact Except.ok.inj h ▸ start
  | cons member rest ih =>
    unfold visitMembers at h
    obtain ⟨name, -, h⟩ := bind_eq_ok_iff.1 h
    split_ifs at h
    · cases h
    · obtain ⟨s', visited, h⟩ := bind_eq_ok_iff.1 h
      exact ih (step start visited) h
    · exact ih start h
    · cases h

theorem visitItems_induction {optional : Nat} {names : List String} {items : List Json} {s r : σ}
    (start : I s) (h : visitItems optional visit names items s = .ok r) : I r := by
  induction items generalizing names s with
  | nil =>
    have ended : (if names.length ≤ optional then .ok s else .error .malformed) =
        (.ok r : Except Error σ) := by
      cases names <;> exact h
    split_ifs at ended
    exact Except.ok.inj ended ▸ start
  | cons item rest ih =>
    cases names with
    | nil => cases h
    | cons name names =>
      obtain ⟨s', visited, h⟩ := bind_eq_ok_iff.1 h
      exact ih (step start visited) h

/-- Reading a record keeps what reading each field keeps. -/
theorem visitRecord_induction {names : List String} {json : Json} {s r : σ} (start : I s)
    (h : visitRecord names visit s json = .ok r) : I r := by
  obtain ⟨last, visited, h⟩ := bind_eq_ok_iff.1 h
  have kept : I last := by
    unfold visitFields at visited
    split at visited
    · exact visitMembers_induction step start visited
    · exact visitItems_induction step start visited
    · cases visited
  split_ifs at h
  · exact Except.ok.inj h ▸ kept
  · cases h

end Visit

theorem exists_of_mem_toList {α : Type} {read : Json → Except Error α} {json : Json} {l : List α}
    (h : json.toList read = .ok l) {a : α} (mem : a ∈ l) : ∃ item, read item = .ok a := by
  unfold toList at h
  split at h
  · obtain ⟨item, -, found⟩ := exists_of_mem_mapM h mem
    exact ⟨item, found⟩
  · cases h

theorem exists_of_toPair {α β : Type} {readFst : Json → Except Error α}
    {readSnd : Json → Except Error β} {json : Json} {a : α} {b : β}
    (h : json.toPair readFst readSnd = .ok (a, b)) : ∃ second, readSnd second = .ok b := by
  unfold toPair at h
  split at h
  · obtain ⟨_, -, h⟩ := bind_eq_ok_iff.1 h
    cases h
  · obtain ⟨_, -, h⟩ := bind_eq_ok_iff.1 h
    obtain ⟨second, found, h⟩ := bind_eq_ok_iff.1 h
    split_ifs at h
    obtain ⟨-, rfl⟩ := Prod.mk.inj (Except.ok.inj h)
    exact ⟨_, found⟩
  · cases h

end Json

/-! ## Intervals and states -/

theorem Interval.canonical_of_check {i j : Interval} (h : i.check = .ok j) : j.Canonical := by
  unfold Interval.check at h
  split_ifs at h with invalid
  have valid : Width.isValid i.bits := by simpa using invalid
  split at h
  · split_ifs at h
    exact Except.ok.inj h ▸ canonical_between valid _ _
  · rename_i other
    obtain rfl := Except.ok.inj h
    cases i with
    | range bits lo hi => exact absurd rfl (other bits lo hi)
    | bottom bits => exact valid
    | top bits => exact valid

theorem Interval.canonical_ofJson {source : Json.Source} {json : Json} {i : Interval}
    (h : ofJson source json = .ok i) : i.Canonical := by
  obtain ⟨raw, -, h⟩ := bind_eq_ok_iff.1 h
  unfold Json.accept at h
  cases checked : raw.check with
  | error e =>
    rw [checked] at h
    cases h
  | ok j =>
    rw [checked] at h
    exact Except.ok.inj h ▸ canonical_of_check checked

/-- The intervals of a state that is read are canonical. -/
theorem State.canonical_ofJson {source : Json.Source} {json : Json} {s : State}
    (h : ofJson source json = .ok s) (slot : Slot) (i : Interval)
    (entry : s.values[slot]? = some i) : i.Canonical := by
  let Kept (s : State) : Prop :=
    ∀ (slot : Slot) (i : Interval), s.values[slot]? = some i → i.Canonical
  have start : Kept .unconstrained := fun slot i entry => by simp [unconstrained] at entry
  have step {s s' : State} {name : String} {json : Json} (kept : Kept s)
      (read : readField source s name json = .ok s') : Kept s' := by
    unfold readField at read
    split at read
    · obtain ⟨values, found, read⟩ := bind_eq_ok_iff.1 read
      obtain rfl := Except.ok.inj read
      intro slot i entry
      obtain ⟨pair, paired⟩ := Json.exists_of_mem_toList found (mem_of_getElem?_ofList entry)
      obtain ⟨second, here⟩ := Json.exists_of_toPair paired
      exact Interval.canonical_ofJson here
    · obtain ⟨classes, -, read⟩ := bind_eq_ok_iff.1 read
      exact Except.ok.inj read ▸ kept
    · exact Except.ok.inj read ▸ kept
  exact Json.visitRecord_induction step start h slot i entry

end RangeFlow
