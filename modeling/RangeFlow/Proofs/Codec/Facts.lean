import RangeFlow.Codec.Facts
import RangeFlow.Proofs.Codec.Program

/-!
# Facts that survive

An interval is checked and made canonical when it is read, so the canonical ones are those that survive
(`Interval.survives_iff`). The classes and the values of a state are read as they are, so a state
survives if its intervals are canonical and its widths are machine numbers (`State.survives`).
-/

namespace RangeFlow

open Json (Survives)

/-! ## Intervals -/

theorem Width.lt_of_isValid {bits : Nat} (valid : isValid bits) : bits < 2 ^ 64 := by
  have := isValid_iff.1 valid
  omega

namespace Interval

/-- A canonical interval passes the check as it is. -/
theorem Canonical.check {i : Interval} (h : i.Canonical) : i.check = .ok i := by
  cases i with
  | bottom bits => exact if_neg (by simpa using h.isValid)
  | top bits => exact if_neg (by simpa using h.isValid)
  | range bits lo hi =>
    have valid := h.isValid
    have same := h.normal.eq_between rfl
    obtain ⟨lower, ordered, upper⟩ := h.bounds rfl
    rw [bits_range] at valid lower upper same
    have accepted : ¬(hi < lo ∨ lo < Width.minValue bits ∨ Width.maxValue bits < hi) := by omega
    simp [Interval.check, valid, accepted, ← same]

theorem ofJsonUnchecked_toJson {i : Interval} (width : i.bits < 2 ^ 64) (fits : i.Representable)
    (source : Json.Source) : ofJsonUnchecked source i.toJson = .ok i := by
  cases i with
  | bottom bits =>
    rw [bits_bottom] at width
    simp [toJson, ofJsonUnchecked, Json.filled, Json.toNat_nat width]
  | top bits =>
    rw [bits_top] at width
    simp [toJson, ofJsonUnchecked, Json.filled, Json.toNat_nat width]
  | range bits lo hi =>
    rw [bits_range] at width
    obtain ⟨lower, upper⟩ := fits lo hi rfl
    simp [toJson, ofJsonUnchecked, Json.filledFields_record, Json.toNat_nat width,
      Json.toInt_int lower, Json.toInt_int upper, pure_eq_ok]

/-- The canonical intervals are those that are read back. -/
theorem survives_iff {i : Interval} {source : Json.Source} :
    Survives toJson (ofJson source) i ↔ i.Canonical := by
  refine ⟨fun survives => canonical_ofJson survives.read, fun canonical => ⟨?_, ?_⟩⟩
  · cases i with
    | bottom bits => exact Json.written_variant _ (Json.written_nat bits)
    | top bits => exact Json.written_variant _ (Json.written_nat bits)
    | range bits lo hi => exact Json.written_variant _ (Json.written_record (by simp))
  · have width := Width.lt_of_isValid canonical.isValid
    rw [ofJson, ofJsonUnchecked_toJson width canonical.representable, ok_bind, canonical.check]
    rfl

end Interval

/-! ## Alias classes -/

/-- The widths of aliased slots are machine numbers. -/
def AliasClasses.Fits (a : AliasClasses) : Prop := ∀ c ∈ a.classes, ∀ slot ∈ c, slot.Fits

theorem AliasClasses.survives {a : AliasClasses} (fits : a.Fits) : Survives toJson ofJson a := by
  have listed : Survives (Json.ofList (Json.ofList Slot.toJson)) (Json.toList (Json.toList Slot.ofJson))
      (a.classes.toList.map Std.ExtTreeSet.toList) := by
    refine .ofList fun slots mem => survives_slots fun slot here => ?_
    obtain ⟨c, hc, rfl⟩ := List.mem_map.1 mem
    exact fits c (Std.ExtTreeSet.mem_toList.1 hc) slot (Std.ExtTreeSet.mem_toList.1 here)
  have classes : a.toJson = .record [("classes", Json.ofList (Json.ofList Slot.toJson)
      (a.classes.toList.map Std.ExtTreeSet.toList))] := by
    simp [toJson, Json.ofList, Function.comp_def]
  constructor
  · rw [classes]
    exact Json.written_record (by simp [listed.written])
  · rw [classes]
    simp [ofJson, Json.toFields_record, listed.read, pure_eq_ok, Function.comp_def,
      ofList_toList]

/-! ## States -/

/-- The widths of the slots that a state speaks of are machine numbers. -/
structure State.Fits (s : State) : Prop where
  slot : ∀ (slot : Slot) (i : Interval), s.values[slot]? = some i → slot.Fits
  aliases : s.aliases.Fits

section State

variable {s : State} (fits : s.Fits)
  (canonical : ∀ (slot : Slot) (i : Interval), s.values[slot]? = some i → i.Canonical)
include fits canonical

theorem State.survives_values (source : Json.Source) :
    Survives (Json.ofList fun (slot, i) => .arr [slot.toJson, i.toJson])
      (Json.toList (Json.toPair Slot.ofJson (Interval.ofJson source))) s.values.toList := by
  apply Json.Survives.ofList
  rintro ⟨slot, i⟩ mem
  have entry := Std.ExtTreeMap.mem_toList_iff_getElem?_eq_some.1 mem
  exact .pair (Slot.survives (fits.slot slot i entry))
    (Interval.survives_iff.2 (canonical slot i entry))

/-- A state of canonical intervals is read back. -/
theorem State.survives (source : Json.Source) : Survives toJson (ofJson source) s := by
  have values := State.survives_values fits canonical source
  have aliases := AliasClasses.survives fits.aliases
  constructor
  · exact Json.written_record (by simp [values.written, aliases.written])
  · rw [ofJson, toJson, Json.visitRecord_record (by simp) (by simp)]
    simp [List.foldlM, readField, values.read, aliases.read, pure_eq_ok, map_ofList_toList]

end State

end RangeFlow
