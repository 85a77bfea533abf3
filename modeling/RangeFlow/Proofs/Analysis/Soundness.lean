import RangeFlow.Proofs.Analysis.Checks

/-!
# Soundness of an analysis

The states of a report cover every execution: wherever an execution from the entry gets to, the
report has a state there, and that state describes the store. This holds whether or not the analysis
converged (`Procedure.analyze_covers_executions`). The facts have to be inside the widths of their
slots, which an analysis does not check; `Procedure.wide_fact_hides_store` is a fact that is not.
-/

namespace RangeFlow.Procedure

variable {p : Procedure} {initial : State} {options : Options} {report : Report}

/-- The states of a report cover every execution from the entry. -/
theorem Analysed.covers (analysed : p.Analysed initial options report)
    (admissible : initial.Obeys .admissible) {entry : Nat} (entered : p.graph.entry = some entry)
    {σ : Store} (described : initial.Describes σ) {last : Configuration}
    (reached : p.Reaches options.summaries ⟨entry, σ⟩ last) :
    ∃ s, report.states[last.point]? = some s ∧ s.Describes last.store := by
  obtain ⟨-, rfl, ready, solves, -, -, states, -, -⟩ := analysed
  obtain rfl := Option.some.inj (ready.valid.entry_eq.symm.trans entered)
  rw [states]
  exact solves.covers admissible described reached

/-! ## Executions of the counting loop -/

/-- A store in which `i` holds a count and every other slot holds four. -/
def counterStore (count : BitVec 32) : Store :=
  Function.update (fun slot => BitVec.ofNat slot.bits 4) ⟨"i", 32⟩ count

theorem counterStore_count (count : BitVec 32) : counterStore count ⟨"i", 32⟩ = count :=
  Function.update_self _ _ _

theorem counterFacts_describes (count : BitVec 32) :
    counterFacts.Describes (counterStore count) := by
  refine State.describes_of_entries (fun _ entry => ?_) fun {x y} _ _ same => ?_
  · obtain ⟨rfl, rfl | rfl⟩ := counterFacts_entry entry
    · rfl
    · rfl
  · have four {slot : Slot} {c : SlotSet} (hc : c ∈ counterFacts.aliases.classes) (mem : slot ∈ c) :
        (counterStore count slot).toInt = 4 := by
      rw [counterFacts_class hc] at mem
      rcases mem_insert_iff.1 mem with rfl | mem
      · rfl
      · rw [mem_singleton_iff.1 mem]
        rfl
    rcases same with rfl | ⟨c, hc, hx, hy⟩
    · rfl
    · rw [four hc hx, four hc hy]

theorem counter_step {σ σ' : Store} (point : Point) (edge : Edge) (located : point ∈ counterPoints)
    (joined : edge ∈ counterEdges) (leaves : edge.head = point.index)
    (done : point.operation.Step ∅ σ σ') (taken : counter.graph.Takes point.operation edge σ') :
    counter.Step ∅ ⟨point.index, σ⟩ ⟨edge.tail, σ'⟩ :=
  ⟨point, edge, getElem?_vertices_counter point located, done,
    leaves ▸ getElem?_edges_counter edge joined, taken⟩

theorem counter_enters (count : BitVec 32) :
    counter.Step ∅ ⟨0, counterStore count⟩ ⟨1, counterStore 0⟩ :=
  counter_step ⟨0, .const ⟨"i", 32⟩ ⟨0, 32⟩, none⟩ ⟨0, 1, .sequential⟩ (by simp [counterPoints])
    (by simp [counterEdges]) rfl (Function.update_idem _ _ _).symm trivial

theorem counter_tests {count : BitVec 32} (below : count.toInt < 10) :
    counter.Step ∅ ⟨1, counterStore count⟩ ⟨2, counterStore count⟩ := by
  refine counter_step ⟨1, .branch ⟨.lt, .slot ⟨"i", 32⟩, .constant ⟨10, 32⟩⟩, none⟩
    ⟨1, 2, .branchTrue⟩ (by simp [counterPoints]) (by simp [counterEdges]) rfl rfl ?_
  change decide ((counterStore count ⟨"i", 32⟩).toInt < 10) = true
  rw [counterStore_count]
  exact decide_eq_true below

/-- The loop is passed through once while the count is below ten. -/
theorem counter_laps {count : BitVec 32} (below : count.toInt < 10) :
    counter.Reaches ∅ ⟨1, counterStore count⟩ ⟨1, counterStore (count + 1)⟩ := by
  have loaded : counter.Step ∅ ⟨2, counterStore count⟩ ⟨3, counterStore count⟩ :=
    counter_step ⟨2, .arrayLoad ⟨"x", 32⟩ (.slot ⟨"i", 32⟩) (some (.constant ⟨10, 32⟩)), none⟩
      ⟨2, 3, .sequential⟩ (by simp [counterPoints]) (by simp [counterEdges]) rfl
      ⟨_, (Function.update_eq_self _ _).symm⟩ trivial
  have counted : counter.Step ∅ ⟨3, counterStore count⟩ ⟨1, counterStore (count + 1)⟩ := by
    refine counter_step ⟨3, .binary ⟨"i", 32⟩ .add (.slot ⟨"i", 32⟩) (.constant ⟨1, 32⟩), none⟩
      ⟨3, 1, .loopBack⟩ (by simp [counterPoints]) (by simp [counterEdges]) rfl ⟨_, rfl, ?_⟩ trivial
    change counterStore (count + 1) = Function.update (counterStore count) ⟨"i", 32⟩
      ((counterStore count ⟨"i", 32⟩ + 1).signExtend 32)
    rw [counterStore_count, BitVec.signExtend_eq]
    exact (Function.update_idem _ _ _).symm
  exact ((Relation.ReflTransGen.single (counter_tests below)).tail loaded).tail counted

/-! ## Soundness -/

/-- End-to-end soundness: whatever the options are and however the analysis ended, every execution from
a store that the initial state describes stays within the states of the report. The initial state has
disjoint alias classes, and its facts are inside the widths of their slots. -/
theorem analyze_covers_executions (built : p.graph.Built)
    (inside : ∀ (slot : Slot) (i : Interval), initial.values[slot]? = some i → i.Inside)
    (disjoint : initial.aliases.PairwiseDisjoint)
    (analysed : p.analyze initial options = .ok report)
    {entry : Nat} (entered : p.graph.entry = some entry)
    {σ : Store} (described : initial.Describes σ) {last : Configuration}
    (reached : p.Reaches options.summaries ⟨entry, σ⟩ last) :
    ∃ s, report.states[last.point]? = some s ∧ s.Describes last.store := by
  obtain ⟨-, accepted, -⟩ := checks_of_analyze analysed
  exact (analysed_of_analyze built analysed).covers
    (admissible_of_checkInitial accepted inside disjoint) entered described reached

/-- The state at the head of the loop describes the store after two laps. -/
theorem analyze_counter_covers_two_laps :
    ∃ report s, counter.analyze counterFacts {} = .ok report ∧ report.states[1]? = some s ∧
      s.Describes (counterStore 2) := by
  obtain ⟨report, analysed, -⟩ := exists_analyze_counter
  have reached : counter.Reaches ∅ ⟨0, counterStore 7⟩ ⟨1, counterStore 2⟩ :=
    .trans (.single (counter_enters 7)) (.trans (counter_laps (by decide)) (counter_laps (by decide)))
  obtain ⟨s, found, described⟩ := analyze_covers_executions built_counter inside_counterFacts
    counterFacts_regular.disjoint analysed entry_counter (counterFacts_describes 7) reached
  exact ⟨report, s, analysed, found, described⟩

/-! ## A fact outside its width -/

section Wide

private abbrev byte : Slot := ⟨"x", 8⟩

/-- Looks a byte up among values that no byte has. -/
def widePoints : List Point :=
  [⟨0, .switch (.slot byte), none⟩, ⟨1, .ret none, none⟩, ⟨2, .ret none, none⟩]

def wideEdges : List Edge := [⟨0, 1, .switchCase {-1000}⟩, ⟨0, 2, .switchDefault⟩]

def wide : Procedure where
  name := "wide"
  parameters := []
  graph := (FlowGraph.assemble (some 0) widePoints wideEdges).toOption.getD .empty

/-- A fact about a byte with a bound that no byte has. -/
def wideFacts : State := ⟨{(byte, .range 8 (-1000) 24)}, .empty⟩

/-- A store in which every slot holds 24. -/
def wideStore : Store := fun slot => BitVec.ofNat slot.bits 24

theorem wideFacts_describes : wideFacts.Describes wideStore := by
  refine State.describes_of_entries (fun _ entry => ?_) fun _ _ same => ?_
  · obtain ⟨rfl, rfl⟩ := getElem?_singleton_eq_some.1 entry
    decide
  · rw [AliasClasses.same_empty.1 same]

theorem built_wide : wide.graph.Built :=
  FlowGraph.built_getD_assemble (some 0) widePoints wideEdges

/-- The value 24 is none that the switch looks for. -/
theorem wide_reaches : wide.Reaches ∅ ⟨0, wideStore⟩ ⟨2, wideStore⟩ := by
  refine .single ⟨⟨0, .switch (.slot byte), none⟩, ⟨0, 2, .switchDefault⟩, by decide, rfl, by decide, ?_⟩
  have other : (24 : Int) ∉ wide.graph.caseSet 0 := by decide
  exact (FlowGraph.takes_switchDefault_iff_notMem built_wide.consistent (by decide) rfl).2 other

/-- Facts have to be inside the widths of their slots, which no check asks for. The lower bound is one of
the values of the switch, and stands for 24 as a byte; so trimming takes away the upper bound, which an
execution brings to the default. -/
theorem wide_fact_hides_store :
    ∃ report s, wide.analyze wideFacts {} = .ok report ∧ report.outcome = .converged ∧
      wide.graph.Built ∧ wideFacts.aliases.PairwiseDisjoint ∧ wideFacts.Describes wideStore ∧
      wide.Reaches ∅ ⟨0, wideStore⟩ ⟨2, wideStore⟩ ∧
      report.states[2]? = some s ∧ s.value byte = .range 8 (-128) 23 ∧ ¬s.Describes wideStore := by
  have looked : (wide.analyze wideFacts {}).map (fun report =>
      (report.outcome, report.states[2]?.map (State.value · byte))) =
      .ok (.converged, some (.range 8 (-128) 23)) := by decide +kernel
  obtain ⟨report, analysed, seen⟩ := exists_of_map_eq_ok looked
  obtain ⟨converged, known⟩ := Prod.mk.inj seen
  obtain ⟨s, found, known⟩ := Option.map_eq_some_iff.1 known
  have excluded : ¬s.Describes wideStore := by
    intro described
    have contained := described.value (by decide : Width.isValid byte.bits)
    rw [known] at contained
    exact absurd contained (by decide)
  exact ⟨report, s, analysed, converged, built_wide, AliasClasses.pairwiseDisjoint_empty,
    wideFacts_describes, wide_reaches, found, known, excluded⟩

end Wide

end RangeFlow.Procedure
