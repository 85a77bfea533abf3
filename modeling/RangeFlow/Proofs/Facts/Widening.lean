import RangeFlow.Proofs.Facts.Lattice
import RangeFlow.Proofs.Facts.Slack

/-!
# Chains of widenings

A chain of widenings starts from a state and widens it by one arriving state after another
(`State.widenings`). It only ascends, and every step that changes the state lowers its slack, so the
number of changes is bounded by the slack of the first state (`State.count_changes_add_slack_le`). The
slack is at most two for every entry and, for every alias class, one for every slot but one
(`State.slack_le_entries`).
-/

namespace RangeFlow

/-! ## What a state has to lose -/

namespace AliasClasses

variable {a : AliasClasses} {slots : List Slot}

/-- A class has a slot that is not known to equal an earlier one: its first. -/
theorem card_redundant_inter_le (disjoint : a.PairwiseDisjoint) {c : SlotSet} (hc : c ∈ a.classes) :
    (c.toList.toFinset ∩ a.redundant slots).card ≤ c.size - 1 := by
  rcases (c.toList.toFinset ∩ a.redundant slots).eq_empty_or_nonempty with none | ⟨x, hx⟩
  · simp [none]
  · obtain ⟨inClass, inSlots, -⟩ : x ∈ c ∧ x ∈ slots ∧ _ := by
      simpa [mem_redundant disjoint] using hx
    obtain ⟨first, mem, same, least⟩ := a.exists_first inSlots
    have firstInClass : first ∈ c := by
      rcases same with rfl | ⟨d, hd, hx, hfirst⟩
      · exact inClass
      · rwa [disjoint c hc d hd x inClass hx]
    have not_redundant : first ∉ a.redundant slots := by
      intro redundant
      obtain ⟨-, y, hy, earlier, same'⟩ := (mem_redundant disjoint).1 redundant
      have := least y hy (same.trans disjoint same'.symm)
      omega
    have others : c.toList.toFinset ∩ a.redundant slots ⊆ c.toList.toFinset.erase first := by
      intro y hy
      obtain ⟨hyc, redundant⟩ := Finset.mem_inter.1 hy
      exact Finset.mem_erase.2 ⟨fun e => not_redundant (e ▸ redundant), hyc⟩
    calc (c.toList.toFinset ∩ a.redundant slots).card
        ≤ (c.toList.toFinset.erase first).card := Finset.card_le_card others
      _ = c.size - 1 := by
        rw [Finset.card_erase_of_mem (by simpa using firstInClass), card_toFinset_toList]

theorem card_redundant_le (disjoint : a.PairwiseDisjoint) :
    (a.redundant slots).card ≤ (a.classes.toList.map fun c => c.size - 1).sum := by
  classical
  have covered : a.redundant slots ⊆
      a.classes.toList.toFinset.biUnion fun c => c.toList.toFinset ∩ a.redundant slots := by
    intro x redundant
    obtain ⟨-, y, -, earlier, same⟩ := (mem_redundant disjoint).1 redundant
    rcases same with rfl | ⟨c, hc, -, hx⟩
    · omega
    · simp only [Finset.mem_biUnion, Finset.mem_inter, List.mem_toFinset, Std.ExtTreeSet.mem_toList]
      exact ⟨c, hc, hx, redundant⟩
  calc (a.redundant slots).card
      ≤ ∑ c ∈ a.classes.toList.toFinset, (c.toList.toFinset ∩ a.redundant slots).card :=
        (Finset.card_le_card covered).trans Finset.card_biUnion_le
    _ ≤ ∑ c ∈ a.classes.toList.toFinset, (c.size - 1) := by
        refine Finset.sum_le_sum fun c hc => card_redundant_inter_le disjoint ?_
        simpa using hc
    _ = (a.classes.toList.map fun c => c.size - 1).sum :=
        List.sum_toFinset _ (nodup_toList a.classes)

end AliasClasses

namespace State

variable {s t : State} {slots : List Slot} {arriving : Nat → State}

/-- Only the entries of a state have bounds to lose. -/
theorem sum_slack_value_le (s : State) (slots : List Slot) :
    ∑ slot ∈ slots.toFinset, (s.value slot).slack ≤ 2 * s.values.size := by
  rw [← Finset.sum_filter_ne_zero]
  have entries : (slots.toFinset.filter fun slot => (s.value slot).slack ≠ 0) ⊆
      s.values.keys.toFinset := by
    intro slot mem
    cases entry : s.values[slot]? with
    | none => simp [value_of_getElem?_eq_none entry] at mem
    | some i =>
      exact List.mem_toFinset.2
        (Std.ExtTreeMap.mem_keys.2 (mem_iff_exists_getElem?.2 ⟨i, entry⟩))
  have keys : s.values.keys.toFinset.card ≤ s.values.size :=
    Std.ExtTreeMap.length_keys (t := s.values) ▸ s.values.keys.toFinset_card_le
  calc ∑ slot ∈ slots.toFinset with (s.value slot).slack ≠ 0, (s.value slot).slack
      ≤ (slots.toFinset.filter fun slot => (s.value slot).slack ≠ 0).card • 2 :=
        Finset.sum_le_card_nsmul _ _ _ fun slot _ => (s.value slot).slack_le_two
    _ ≤ 2 * s.values.size := by
        have := (Finset.card_le_card entries).trans keys
        rw [smul_eq_mul]
        omega

theorem slack_le_entries (disjoint : s.aliases.PairwiseDisjoint) : s.slack slots ≤
    2 * s.values.size + (s.aliases.classes.toList.map fun c => c.size - 1).sum :=
  Nat.add_le_add (s.sum_slack_value_le slots) (AliasClasses.card_redundant_le disjoint)

/-! ## Chains -/

/-- The chain of states that starts from `s` and is widened by one arriving state after another. -/
def widenings (s : State) (arriving : Nat → State) : Nat → State
  | 0 => s
  | n + 1 => (s.widenings arriving n).widen ((s.widenings arriving n).join (arriving n))

/-- A join speaks only of the slots that the first state speaks of. -/
theorem Obeys.join_regular {occurs : Slot → Prop} (h : s.Obeys (.regular occurs)) (ht : t.Regular) :
    (s.join t).Obeys (.regular occurs) := by
  have joined := (h.regular.join ht).obeys_all
  refine ⟨fun entry => ?_, joined.valid, joined.width, joined.fact,
    joined.classes.1, joined.classes.2.1, fun same => ?_⟩
  · obtain ⟨a, b, ha, -⟩ := getElem?_combine.1 entry
    exact h.occurs ha
  · exact h.classes.2.2 (AliasClasses.same_intersect.1 same).1

theorem Obeys.widenings {occurs : Slot → Prop} (h : s.Obeys (.regular occurs))
    (regular : ∀ n, (arriving n).Regular) (n : Nat) :
    (s.widenings arriving n).Obeys (.regular occurs) := by
  induction n with
  | zero => exact h
  | succ n ih => exact ih.widen (Discipline.lawful_regular _) (ih.join_regular (regular n))

/-- The changes of a chain are paid for by what the first state has to lose. -/
theorem count_changes_add_slack_le (h : s.Obeys (.regular (· ∈ slots)))
    (regular : ∀ n, (arriving n).Regular) (n : Nat) :
    Nat.count (fun i => s.widenings arriving (i + 1) ≠ s.widenings arriving i) n +
      (s.widenings arriving n).slack slots ≤ s.slack slots := by
  induction n with
  | zero =>
    rw [Nat.count_zero, Nat.zero_add]
    exact le_rfl
  | succ n ih =>
    rw [Nat.count_succ]
    have current := h.widenings regular n
    split_ifs with changed
    · have := slack_widen_lt current (current.join_regular (regular n)) changed
      rw [State.widenings]
      omega
    · rw [not_not.1 changed]
      omega

theorem isSubset_widenings_succ (h : s.Regular) (regular : ∀ n, (arriving n).Regular) (n : Nat) :
    (s.widenings arriving n).isSubset (s.widenings arriving (n + 1)) := by
  have current := (h.obeys_all.widenings regular n).regular
  exact (current.isSubset_widen (current.join (regular n))).1

/-- A chain of widenings changes at most twice for every entry of its first state and once for every
slot but one of each alias class, whatever arrives, and it ascends at every step. -/
theorem widenings_settle (h : s.Regular) (regular : ∀ n, (arriving n).Regular) :
    (∀ n, Nat.count (fun i => s.widenings arriving (i + 1) ≠ s.widenings arriving i) n ≤
      2 * s.values.size + (s.aliases.classes.toList.map fun c => c.size - 1).sum) ∧
    ∀ n, (s.widenings arriving n).isSubset (s.widenings arriving (n + 1)) := by
  refine ⟨fun n => ?_, isSubset_widenings_succ h regular⟩
  have paid := count_changes_add_slack_le (h.obeys_slots fun _ mem => mem) regular n
  have bounded : s.slack s.slots ≤ _ := slack_le_entries h.disjoint
  omega

/-- States that arrive at `threeEqual` and take away one bound or one equality each. -/
def takingOneAway : Nat → State
  | 0 => ⟨{(⟨"a", 8⟩, .range 8 (-1) 5), (⟨"b", 8⟩, .range 8 1 9)}, threeEqual.aliases⟩
  | 1 => ⟨{(⟨"a", 8⟩, .range 8 0 6), (⟨"b", 8⟩, .range 8 1 9)}, threeEqual.aliases⟩
  | 2 => ⟨{(⟨"b", 8⟩, .range 8 0 9)}, threeEqual.aliases⟩
  | 3 => ⟨{(⟨"b", 8⟩, .range 8 1 10)}, threeEqual.aliases⟩
  | 4 => twoEqual
  | _ => ⟨∅, .empty⟩

theorem regular_takingOneAway : ∀ n, (takingOneAway n).Regular
  | 0 | 1 | 2 | 3 | 4 => by decide +kernel
  | n + 5 => by
    have nothing : (⟨∅, .empty⟩ : State).Regular := by decide +kernel
    exact nothing

/-- The bound is reached: two entries and a class of three slots allow six changes, all of which occur
in six steps, and none is left after them. -/
theorem widenings_settle_six :
    Nat.count (fun i => threeEqual.widenings takingOneAway (i + 1) ≠
      threeEqual.widenings takingOneAway i) 6 = 6 ∧
    (∀ n, Nat.count (fun i => threeEqual.widenings takingOneAway (i + 1) ≠
      threeEqual.widenings takingOneAway i) n ≤ 6) ∧
    ∀ n, (threeEqual.widenings takingOneAway n).isSubset
      (threeEqual.widenings takingOneAway (n + 1)) := by
  have regular : threeEqual.Regular := by decide +kernel
  have allowed : 2 * threeEqual.values.size +
      (threeEqual.aliases.classes.toList.map fun c => c.size - 1).sum = 6 := by decide +kernel
  obtain ⟨changes, ascends⟩ := widenings_settle regular regular_takingOneAway
  exact ⟨by decide +kernel, fun n => allowed ▸ changes n, ascends⟩

end State

end RangeFlow
