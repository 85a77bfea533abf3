import RangeFlow.Proofs.Analysis.Soundness
import RangeFlow.Proofs.Facts.Join

/-!
# What a procedure returns

`Report.returnValue?` joins the values at the return points, in the order of the points. The join of
intervals of different widths is everything that the first of them can hold (`Interval.foldl_join_eq_top`),
and return points of a procedure may have operands of different widths. So the result has the width of
the first return point, and covers what is returned elsewhere as far as that width can hold it.

Main statement: `Procedure.returnValue?_covers_iff`, with `Procedure.mixed_returns_exclude` for a value
that is returned and left out.
-/

namespace RangeFlow

open Width (Holds)

/-! ## Joins of several intervals -/

namespace Interval

@[simp]
theorem bits_foldl_join (rest : List Interval) (first : Interval) :
    (rest.foldl join first).bits = first.bits := by
  induction rest generalizing first with
  | nil => rfl
  | cons i rest ih => rw [List.foldl_cons, ih, bits_join]

theorem foldl_top_join (rest : List Interval) (bits : Nat) :
    rest.foldl join (top bits) = top bits := by
  induction rest with
  | nil => rfl
  | cons i rest ih => rw [List.foldl_cons, top_join, ih]

/-- One interval of another width makes the join full. -/
theorem foldl_join_eq_top {rest : List Interval} {first i : Interval} (mem : i ∈ rest)
    (other : i.bits ≠ first.bits) : rest.foldl join first = top first.bits := by
  induction rest generalizing first with
  | nil => cases mem
  | cons j rest ih =>
    rw [List.foldl_cons]
    rcases List.mem_cons.1 mem with rfl | mem
    · rw [join, if_pos other.symm, foldl_top_join]
    · rw [ih mem (by rwa [bits_join]), bits_join]

/-- A join covers what the width of the first interval can hold of the others. -/
theorem contains_foldl_join {rest : List Interval} {first i : Interval} {x : Int}
    (mem : i ∈ first :: rest) (here : i.contains x) (held : Holds first.bits x) :
    (rest.foldl join first).contains x := by
  induction rest generalizing first i with
  | nil =>
    obtain rfl := List.mem_singleton.1 mem
    exact here
  | cons j rest ih =>
    rw [List.foldl_cons]
    have held' : Holds (first.join j).bits x := by rwa [bits_join]
    rcases List.mem_cons.1 mem with rfl | mem
    · exact ih List.mem_cons_self (contains_join_left here held) held'
    · rcases List.mem_cons.1 mem with rfl | mem
      · exact ih List.mem_cons_self (contains_join_right here held) held'
      · exact ih (List.mem_cons_of_mem _ mem) here held'

end Interval

/-! ## Return points -/

namespace Report

variable {report : Report}

/-- Where something is returned, the joined value has the width of the first return point and covers
what that width can hold. -/
theorem exists_returnValue? {index : Nat} {i : Interval} (found : report.returns[index]? = some i) :
    ∃ r first j, report.returnValue? = some r ∧ report.returns[first]? = some j ∧
      (∀ other ∈ report.returns, first ≤ other) ∧ r.bits = j.bits ∧
      (i.bits ≠ j.bits → r = .top j.bits) ∧
      ∀ x, i.contains x → Holds j.bits x → r.contains x := by
  have mem := Std.ExtTreeMap.mem_toList_iff_getElem?_eq_some.2 found
  cases listed : report.returns.toList with
  | nil =>
    rw [listed] at mem
    cases mem
  | cons entry rest =>
    obtain ⟨first, j⟩ := entry
    have values : report.returns.values = j :: rest.map Prod.snd := by
      rw [values_eq_map_toList, listed, List.map_cons]
    have ordered : report.returns.toList.Pairwise fun a b => a.1 < b.1 :=
      Std.ExtTreeMap.ordered_keys_toList.imp Std.compare_eq_lt.1
    have member : i ∈ j :: rest.map Prod.snd := values ▸ mem_values_of_getElem? found
    refine ⟨(rest.map Prod.snd).foldl Interval.join j, first, j, ?_, ?_, fun other here => ?_,
      Interval.bits_foldl_join _ _, fun width => ?_, fun x here held => ?_⟩
    · rw [returnValue?, values]
    · exact Std.ExtTreeMap.mem_toList_iff_getElem?_eq_some.1 (listed ▸ List.mem_cons_self)
    · obtain ⟨k, there⟩ := mem_iff_exists_getElem?.1 here
      have mem := Std.ExtTreeMap.mem_toList_iff_getElem?_eq_some.2 there
      rw [listed] at mem ordered
      rcases List.mem_cons.1 mem with same | later
      · exact (congrArg Prod.fst same).ge
      · exact ((List.pairwise_cons.1 ordered).1 _ later).le
    · rcases List.mem_cons.1 member with rfl | later
      · exact absurd rfl width
      · exact Interval.foldl_join_eq_top later width
    · exact Interval.contains_foldl_join member here held

end Report

namespace Procedure

variable {p : Procedure} {initial : State} {options : Options} {report : Report}

/-- A point returns the value of an operand. -/
def ReturnsAt (p : Procedure) (index : Nat) (value : Operand) : Prop :=
  ∃ point, p.graph.graph.vertices[index]? = some point ∧ point.operation = .ret (some value)

/-- The returned values are listed at all return points with a state. -/
theorem getElem?_of_returns {states : Std.ExtTreeMap Nat State} {values : Std.ExtTreeMap Nat Interval}
    (h : p.returns states = .ok values) {index : Nat} {s : State} {value : Operand}
    (held : states[index]? = some s) (returns : p.ReturnsAt index value) :
    values[index]? = some (s.eval value) := by
  obtain ⟨point, located, operation⟩ := returns
  have listed : index ∈ values := by
    obtain ⟨entries, each, h⟩ := bind_eq_ok_iff.1 h
    obtain rfl := Except.ok.inj h
    obtain ⟨entry, mem, returned⟩ :=
      exists_mem_mapM each (Std.ExtTreeMap.mem_toList_iff_getElem?_eq_some.2 held)
    have expected : p.returned? index s = .ok (some (index, s.eval value)) := by
      simp only [returned?, FlowGraph.point_eq_ok.2 located, ok_bind, operation]
      rfl
    obtain rfl := Except.ok.inj (expected.symm.trans returned)
    rw [Std.ExtTreeMap.mem_ofList, List.contains_iff_mem]
    exact List.mem_map.2 ⟨(index, s.eval value), List.mem_filterMap.2 ⟨some _, mem, rfl⟩, rfl⟩
  obtain ⟨i, found⟩ := mem_iff_exists_getElem?.1 listed
  obtain ⟨s', point', value', held', located', operation', rfl⟩ := exists_of_returns h found
  obtain rfl := Option.some.inj (held.symm.trans held')
  obtain rfl := Option.some.inj (located.symm.trans located')
  obtain rfl := Option.some.inj (Operation.ret.inj (operation.symm.trans operation'))
  exact found

/-- An execution that returns a value is covered as far as the return points allow. The joined value
has the width of the first return point with a state, and contains what is returned exactly if that
width can hold it; so it does if the value is no wider, and always if all widths are the same. -/
theorem returnValue?_covers_iff (built : p.graph.Built)
    (inside : ∀ (slot : Slot) (i : Interval), initial.values[slot]? = some i → i.Inside)
    (disjoint : initial.aliases.PairwiseDisjoint)
    (analysed : p.analyze initial options = .ok report)
    {entry : Nat} (entered : p.graph.entry = some entry)
    {σ : Store} (described : initial.Describes σ) {last : Configuration}
    (reached : p.Reaches options.summaries ⟨entry, σ⟩ last)
    {value : Operand} (returns : p.ReturnsAt last.point value) :
    ∃ r first operand, report.returnValue? = some r ∧ p.ReturnsAt first operand ∧
      first ∈ report.states ∧
      (∀ index other, p.ReturnsAt index other → index ∈ report.states → first ≤ index) ∧
      r.bits = operand.bits ∧
      (r.contains (value.read last.store).toInt ↔ Holds operand.bits (value.read last.store).toInt) ∧
      (value.bits ≤ operand.bits → r.contains (value.read last.store).toInt) := by
  obtain ⟨-, accepted, -⟩ := checks_of_analyze analysed
  have start := admissible_of_checkInitial accepted inside disjoint
  obtain ⟨problem, solution, rfl, ready, solves, reported⟩ := exists_solution_of_analyze built analysed
  obtain ⟨examinations, values, -, listed, shape⟩ := report_eq_ok reported
  obtain rfl : report.returns = values := congrArg Report.returns shape
  have states : report.states = solution.states := congrArg Report.states shape
  obtain rfl := Option.some.inj (ready.valid.entry_eq.symm.trans entered)
  obtain ⟨s, held, here⟩ := solves.covers start described reached
  have width {index : Nat} {s : State} (held : solution.states[index]? = some s) (operand : Operand) :
      (s.eval operand).bits = operand.bits :=
    (solves.obeys ready Discipline.lawful_admissible AliasClasses.pairwiseDisjoint_empty
      (fun _ _ _ => trivial) start held).bits_eval operand
  have valid : Width.isValid value.bits := by
    obtain ⟨point, located, operation⟩ := returns
    have sorted := ready.valid.sorted located
    rw [operation] at sorted
    exact sorted.read (by simp [Operation.operandsRead])
  have returned := Holds.of_toInt valid (value.read last.store)
  -- What the report lists at the first return point is about an operand there.
  obtain ⟨r, first, j, joined, found, least, bits, full, covers⟩ :=
    Report.exists_returnValue? (getElem?_of_returns listed held returns)
  obtain ⟨s', point, operand, held', located, operation, rfl⟩ := exists_of_returns listed found
  rw [width held' operand] at bits full covers
  rw [width held value] at full
  have within (fits : Holds operand.bits (value.read last.store).toInt) :
      r.contains (value.read last.store).toInt := covers _ (here.eval valid) fits
  rw [states]
  refine ⟨r, first, operand, joined, ⟨point, located, operation⟩,
    mem_iff_exists_getElem?.2 ⟨s', held'⟩, fun index other returns' mem => ?_, bits, ⟨?_, within⟩,
    fun narrow => within (returned.mono narrow)⟩
  · obtain ⟨t, there⟩ := mem_iff_exists_getElem?.1 mem
    exact least index (mem_iff_exists_getElem?.2 ⟨_, getElem?_of_returns listed there returns'⟩)
  · intro contained
    by_cases same : value.bits = operand.bits
    · exact same ▸ returned
    · rw [full same] at contained
      exact Interval.contains_top.1 contained

section Mixed

private abbrev sign : Condition := ⟨.lt, .slot ⟨"x", 32⟩, .constant ⟨0, 32⟩⟩

/-- Returns a byte for negative numbers, and a wider word for the others. -/
def mixedPoints : List Point :=
  [⟨0, .branch sign, none⟩, ⟨1, .ret (some (.constant ⟨5, 8⟩)), none⟩,
    ⟨2, .ret (some (.constant ⟨1000, 32⟩)), none⟩]

def mixedEdges : List Edge := [⟨0, 1, .branchTrue⟩, ⟨0, 2, .branchFalse⟩]

def mixed : Procedure where
  name := "mixed"
  parameters := [⟨"x", 32⟩]
  graph := (FlowGraph.assemble (some 0) mixedPoints mixedEdges).toOption.getD .empty

theorem built_mixed : mixed.graph.Built :=
  FlowGraph.built_getD_assemble (some 0) mixedPoints mixedEdges

theorem exists_analyze_mixed :
    ∃ report, mixed.analyze .unconstrained {} = .ok report ∧ report.returnValue? = some (.top 8) := by
  have looked : (mixed.analyze .unconstrained {}).map Report.returnValue? = .ok (some (.top 8)) := by
    decide
  exact exists_of_map_eq_ok looked

/-- A byte that is returned is covered by the joined bytes. -/
theorem returnValue?_covers_byte :
    ∃ report r, mixed.analyze .unconstrained {} = .ok report ∧ report.returnValue? = some r ∧
      r.contains 5 := by
  obtain ⟨report, analysed, full⟩ := exists_analyze_mixed
  have reached : mixed.Reaches ∅ ⟨0, fun slot => .allOnes slot.bits⟩
      ⟨1, fun slot => .allOnes slot.bits⟩ := by
    refine .single ⟨⟨0, .branch sign, none⟩, ⟨0, 1, .branchTrue⟩, by decide, rfl, by decide, ?_⟩
    have negative : Comparison.lt.holds (BitVec.allOnes 32).toInt (0 : BitVec 32).toInt := by decide
    exact (FlowGraph.takes_branchTrue rfl).2 negative
  have returns : mixed.ReturnsAt 1 (.constant ⟨5, 8⟩) :=
    ⟨⟨1, .ret (some (.constant ⟨5, 8⟩)), none⟩, by decide, rfl⟩
  obtain ⟨r, first, operand, joined, -, -, -, bits, -, covers⟩ := returnValue?_covers_iff built_mixed
    (fun slot i entry => by simp [State.unconstrained] at entry) AliasClasses.pairwiseDisjoint_empty
    analysed (by decide) (State.describes_unconstrained _) reached returns
  obtain rfl := Option.some.inj (full.symm.trans joined)
  exact ⟨report, _, analysed, full, covers (by rw [← bits]; decide)⟩

/-- The word that is returned for zero is left out, since the first return point is narrower. -/
theorem mixed_returns_exclude :
    ∃ report r, mixed.analyze .unconstrained {} = .ok report ∧ report.returnValue? = some r ∧
      State.unconstrained.Describes 0 ∧ mixed.Reaches ∅ ⟨0, 0⟩ ⟨2, 0⟩ ∧
      mixed.ReturnsAt 2 (.constant ⟨1000, 32⟩) ∧
      ((Operand.constant ⟨1000, 32⟩).read 0).toInt = 1000 ∧ r.contains 1000 = false := by
  obtain ⟨report, analysed, full⟩ := exists_analyze_mixed
  have reached : mixed.Reaches ∅ ⟨0, 0⟩ ⟨2, 0⟩ := by
    refine .single ⟨⟨0, .branch sign, none⟩, ⟨0, 2, .branchFalse⟩, by decide, rfl, by decide, ?_⟩
    have zero : ¬Comparison.lt.holds (0 : BitVec 32).toInt (0 : BitVec 32).toInt := by decide
    exact (FlowGraph.takes_branchFalse rfl).2 zero
  exact ⟨report, _, analysed, full, State.describes_unconstrained 0, reached,
    ⟨⟨2, .ret (some (.constant ⟨1000, 32⟩)), none⟩, by decide, rfl⟩, by decide, by decide⟩

end Mixed

end Procedure

end RangeFlow
