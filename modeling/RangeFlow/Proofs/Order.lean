import Mathlib
import RangeFlow.Order

/-!
# Sets and maps by equality of keys

The membership rules of sorted sets and maps, with equality of keys in place of their comparison.
-/

namespace RangeFlow

section Sets

variable {α : Type} [Ord α] [Std.TransOrd α] [Std.LawfulEqOrd α] {s : Std.ExtTreeSet α} {a k : α}

theorem mem_insert_iff : a ∈ s.insert k ↔ a = k ∨ a ∈ s := by
  rw [Std.ExtTreeSet.mem_insert, Std.LawfulEqOrd.compare_eq_iff_eq, eq_comm]

theorem mem_erase_iff : a ∈ s.erase k ↔ a ≠ k ∧ a ∈ s := by
  rw [Std.ExtTreeSet.mem_erase, ne_eq, Std.LawfulEqOrd.compare_eq_iff_eq, eq_comm]

theorem mem_singleton_iff : a ∈ ({k} : Std.ExtTreeSet α) ↔ a = k := by
  change a ∈ (∅ : Std.ExtTreeSet α).insert k ↔ a = k
  rw [mem_insert_iff]
  simp

theorem mem_ofList_iff [DecidableEq α] {l : List α} :
    a ∈ Std.ExtTreeSet.ofList l ↔ a ∈ l := by
  rw [Std.ExtTreeSet.mem_ofList, List.contains_iff_mem]

theorem nodup_toList (s : Std.ExtTreeSet α) : s.toList.Nodup :=
  s.distinct_toList.imp fun {_ _} h e => h (Std.LawfulEqOrd.compare_eq_iff_eq.2 e)

theorem ofList_toList [DecidableEq α] (s : Std.ExtTreeSet α) : Std.ExtTreeSet.ofList s.toList = s := by
  apply Std.ExtTreeSet.ext_mem
  intro a
  rw [mem_ofList_iff, Std.ExtTreeSet.mem_toList]

end Sets

section Maps

variable {κ β : Type} [Ord κ] [Std.TransOrd κ] {m : Std.ExtTreeMap κ β} {a k : κ} {v : β}

theorem mem_iff_exists_getElem? : a ∈ m ↔ ∃ v, m[a]? = some v := by
  rw [Std.ExtTreeMap.mem_iff_isSome_getElem?, Option.isSome_iff_exists]

theorem values_eq_map_toList (m : Std.ExtTreeMap κ β) : m.values = m.toList.map Prod.snd := by
  obtain ⟨⟨m⟩⟩ := m
  induction m using Quotient.inductionOn with
  | _ m =>
    change Std.DTreeMap.Internal.Impl.values m.inner =
      (Std.DTreeMap.Internal.Impl.Const.toList m.inner).map Prod.snd
    rw [Std.DTreeMap.Internal.Impl.values_eq_map_snd,
      Std.DTreeMap.Internal.Impl.Const.toList_eq_toListModel_map, List.map_map]
    rfl

variable [Std.LawfulEqOrd κ]

theorem mem_values_of_getElem? (h : m[k]? = some v) : v ∈ m.values := by
  rw [values_eq_map_toList]
  exact List.mem_map_of_mem (Std.ExtTreeMap.mem_toList_iff_getElem?_eq_some.2 h)

section Keyed

variable {key : β → κ} (keyed : ∀ {k : κ} {v : β}, m[k]? = some v → key v = k)
include keyed

/-- Values that name their own keys stand under them. -/
theorem mem_values_iff : v ∈ m.values ↔ m[key v]? = some v := by
  refine ⟨fun mem => ?_, mem_values_of_getElem?⟩
  rw [values_eq_map_toList] at mem
  obtain ⟨⟨k, v⟩, entry, rfl⟩ := List.mem_map.1 mem
  have found := Std.ExtTreeMap.mem_toList_iff_getElem?_eq_some.1 entry
  rw [keyed found]
  exact found

/-- A map with these values, each under its own key, is the same. -/
theorem eq_of_getElem?_iff {m' : Std.ExtTreeMap κ β}
    (same : ∀ k v, m'[k]? = some v ↔ v ∈ m.values ∧ key v = k) : m' = m := by
  apply Std.ExtTreeMap.ext_getElem?
  intro k
  apply Option.ext
  intro v
  rw [same, mem_values_iff keyed]
  constructor
  · rintro ⟨found, rfl⟩
    exact found
  · intro found
    have here := keyed found
    exact ⟨here ▸ found, here⟩

theorem nodup_map_values : (m.values.map key).Nodup := by
  have keys : m.values.map key = m.toList.map Prod.fst := by
    rw [values_eq_map_toList, List.map_map]
    apply List.map_congr_left
    rintro ⟨k, v⟩ entry
    exact keyed (Std.ExtTreeMap.mem_toList_iff_getElem?_eq_some.1 entry)
  rw [keys, List.Nodup, List.pairwise_map]
  exact m.distinct_keys_toList.imp fun {_ _} other same =>
    other (Std.LawfulEqOrd.compare_eq_iff_eq.2 same)

end Keyed

theorem mem_map_insert_iff : a ∈ m.insert k v ↔ a = k ∨ a ∈ m := by
  rw [Std.ExtTreeMap.mem_insert, Std.LawfulEqOrd.compare_eq_iff_eq, eq_comm]

variable [DecidableEq κ]

theorem getElem?_insert_eq : (m.insert k v)[a]? = if a = k then some v else m[a]? := by
  by_cases h : a = k
  · subst h
    simp
  · have other : ¬k = a := fun e => h e.symm
    simp [Std.ExtTreeMap.getElem?_insert, h, other]

theorem getElem?_erase_eq : (m.erase k)[a]? = if a = k then none else m[a]? := by
  by_cases h : a = k
  · subst h
    simp
  · have other : ¬k = a := fun e => h e.symm
    simp [Std.ExtTreeMap.getElem?_erase, h, other]

theorem getElem?_singleton_eq_some {w : β} :
    ({(k, v)} : Std.ExtTreeMap κ β)[a]? = some w ↔ a = k ∧ w = v := by
  change ((∅ : Std.ExtTreeMap κ β).insert k v)[a]? = some w ↔ _
  rw [getElem?_insert_eq]
  split_ifs with here <;> simp [here, eq_comm]

theorem mem_of_getElem?_insertMany {l : List (κ × β)}
    (h : (m.insertMany l)[k]? = some v) : m[k]? = some v ∨ (k, v) ∈ l := by
  induction l generalizing m with
  | nil =>
    rw [Std.ExtTreeMap.insertMany_nil] at h
    exact .inl h
  | cons entry l ih =>
    obtain ⟨key, value⟩ := entry
    rw [Std.ExtTreeMap.insertMany_cons] at h
    rcases ih h with found | mem
    · rw [getElem?_insert_eq] at found
      split_ifs at found with here
      · rw [here, ← Option.some.inj found]
        exact .inr List.mem_cons_self
      · exact .inl found
    · exact .inr (List.mem_cons_of_mem _ mem)

theorem mem_of_getElem?_ofList {l : List (κ × β)}
    (h : (Std.ExtTreeMap.ofList l : Std.ExtTreeMap κ β)[k]? = some v) : (k, v) ∈ l := by
  rw [Std.ExtTreeMap.ofList_eq_insertMany_empty] at h
  exact (mem_of_getElem?_insertMany h).resolve_left (by simp)

theorem map_ofList_toList (m : Std.ExtTreeMap κ β) : Std.ExtTreeMap.ofList m.toList = m := by
  apply Std.ExtTreeMap.ext_getElem?
  intro k
  apply Option.ext
  intro v
  constructor
  · intro found
    exact Std.ExtTreeMap.mem_toList_iff_getElem?_eq_some.1 (mem_of_getElem?_ofList found)
  · intro found
    exact Std.ExtTreeMap.getElem?_ofList_of_mem Std.ReflCmp.compare_self
      Std.ExtTreeMap.distinct_keys_toList (Std.ExtTreeMap.mem_toList_iff_getElem?_eq_some.2 found)

end Maps

end RangeFlow
