import RangeFlow.Codec.Report
import RangeFlow.Proofs.Analysis.Verdicts
import RangeFlow.Proofs.Codec.Facts
import RangeFlow.Proofs.Solver.Budget

/-!
# Reports that survive

A report survives being written and read if its points are machine numbers and its intervals are
canonical (`Report.Fits`). The reports of an analysis are such: its steps keep intervals canonical and
bring in no widths but valid ones (`Discipline.lawful_storable`), and everything that is reported is
about points of the graph.
-/

namespace RangeFlow

open Json (Survives)

/-! ## What fits -/

def FindingKind.Fits : FindingKind → Prop
  | infeasibleEdge tail => tail < 2 ^ 64
  | _ => True

def Finding.Fits (finding : Finding) : Prop := finding.point < 2 ^ 64 ∧ finding.kind.Fits

/-- The numbers of a report are machine numbers, and its intervals are canonical. -/
structure Report.Fits (report : Report) : Prop where
  iterations : report.iterations < 2 ^ 64
  point : ∀ point ∈ report.states, point < 2 ^ 64
  state : ∀ (point : Nat) (s : State), report.states[point]? = some s → s.Fits
  canonical : ∀ (point : Nat) (s : State), report.states[point]? = some s →
    ∀ (slot : Slot) (i : Interval), s.values[slot]? = some i → i.Canonical
  finding : ∀ finding ∈ report.findings, finding.Fits
  returned : ∀ point ∈ report.returns, point < 2 ^ 64
  returns : ∀ (point : Nat) (i : Interval), report.returns[point]? = some i → i.Canonical
  unreachable : ∀ point ∈ report.unreachable, point < 2 ^ 64

/-! ## What survives -/

section PointMap

variable {α : Type} {write : α → Json} {read : Json → Except Error α} {map : Std.ExtTreeMap Nat α}
  (points : ∀ point ∈ map, point < 2 ^ 64)
  (each : ∀ (point : Nat) (a : α), map[point]? = some a → Survives write read a)
include points each

theorem Json.mapM_pointEntries :
    (map.toList.map fun (point, a) => (toString point, write a)).mapM
      (fun (name, json) => do return (← Json.toIndex name, ← read json)) = .ok map.toList := by
  rw [List.mapM_map]
  refine Eq.trans (mapM_eq_ok_map (h := id) ?_) (by rw [List.map_id])
  rintro ⟨point, a⟩ mem
  have found := Std.ExtTreeMap.mem_toList_iff_getElem?_eq_some.1 mem
  have small := points point (mem_iff_exists_getElem?.2 ⟨a, found⟩)
  show (Json.toIndex (toString point) >>= fun index => read (write a) >>= fun value =>
    pure (index, value)) = _
  rw [Json.toIndex_toString small, ok_bind, (each point a found).read, ok_bind, pure_eq_ok]
  rfl

/-- Points are read back from their digits. -/
theorem Json.Survives.ofPointMap : Survives (Json.ofPointMap write) (Json.toPointMap read) map where
  written := by
    refine .obj (fun member mem => ?_) fun member mem => ?_
    · obtain ⟨⟨point, a⟩, -, rfl⟩ := List.mem_map.1 mem
      exact Json.legible_toString point
    · obtain ⟨⟨point, a⟩, here, rfl⟩ := List.mem_map.1 mem
      exact (each point a (Std.ExtTreeMap.mem_toList_iff_getElem?_eq_some.1 here)).written
  read := by
    rw [Json.ofPointMap, Json.toPointMap, Json.toMembers, ok_bind,
      Json.mapM_pointEntries points each, ok_bind, map_ofList_toList, pure_eq_ok]

end PointMap

theorem Outcome.survives (outcome : Outcome) : Survives toJson ofJson outcome := by
  cases outcome <;> exact ⟨Json.written_text _, by simp [toJson, ofJson, Json.bare]⟩

theorem FindingKind.survives {kind : FindingKind} (fits : kind.Fits) (source : Json.Source) :
    Survives toJson (ofJson source) kind := by
  cases kind with
  | infeasibleEdge tail =>
    have small : tail < 2 ^ 64 := fits
    refine ⟨Json.written_variant _ (Json.written_record (by simp)), ?_⟩
    simp [toJson, ofJson, Json.filledFields_record, Json.toNat_nat small, pure_eq_ok]
  | possibleOutOfRange => exact ⟨Json.written_text _, by simp [toJson, ofJson, Json.bare]⟩
  | divergence => exact ⟨Json.written_text _, by simp [toJson, ofJson, Json.bare]⟩

theorem Finding.survives {finding : Finding} (fits : finding.Fits) (source : Json.Source) :
    Survives toJson (ofJson source) finding := by
  have kind := FindingKind.survives fits.2 source
  constructor
  · exact Json.written_record (by simp [kind.written])
  · simp [toJson, ofJson, Json.toFields_record, Json.toNat_nat fits.1, kind.read, pure_eq_ok]

/-- The fields of a report are read one by one, whatever is there at first. The trees are left open,
so that nothing is evaluated but the names. -/
theorem Report.foldlM_readField {report start : Report} {source : Json.Source}
    {procedure outcome iterations states findings returns unreachable : Json}
    (procedureRead : procedure.toText = .ok report.procedure)
    (outcomeRead : Outcome.ofJson outcome = .ok report.outcome)
    (iterationsRead : iterations.toNat = .ok report.iterations)
    (statesRead : states.toPointMap (State.ofJson source) = .ok report.states)
    (findingsRead : findings.toList (Finding.ofJson source) = .ok report.findings)
    (returnsRead : returns.toPointMap (Interval.ofJson source) = .ok report.returns)
    (unreachableRead : unreachable.toList Json.toNat = .ok report.unreachable.toList) :
    [("procedure", procedure), ("outcome", outcome), ("iterations", iterations), ("states", states),
      ("findings", findings), ("returns", returns), ("unreachable", unreachable)].foldlM
      (fun report field => readField source report field.1 field.2) start = .ok report := by
  simp [readField, procedureRead, outcomeRead, iterationsRead, statesRead, findingsRead, returnsRead,
    unreachableRead, ofList_toList, pure_eq_ok]

/-- A report that fits is read back. -/
theorem Report.survives {report : Report} (fits : report.Fits) (source : Json.Source) :
    Survives toJson (ofJson source) report := by
  have outcome := report.outcome.survives
  have states : Survives (Json.ofPointMap State.toJson) (Json.toPointMap (State.ofJson source))
      report.states :=
    .ofPointMap fits.point fun point s found =>
      State.survives (fits.state point s found) (fits.canonical point s found) source
  have findings : Survives (Json.ofList Finding.toJson) (Json.toList (Finding.ofJson source))
      report.findings :=
    .ofList fun finding mem => Finding.survives (fits.finding finding mem) source
  have returns : Survives (Json.ofPointMap Interval.toJson)
      (Json.toPointMap (Interval.ofJson source)) report.returns :=
    .ofPointMap fits.returned fun point i found =>
      Interval.survives_iff.2 (fits.returns point i found)
  have unreachable : Survives (Json.ofList Json.nat) (Json.toList Json.toNat)
      report.unreachable.toList :=
    .ofList fun point mem => ⟨Json.written_nat point,
      Json.toNat_nat (fits.unreachable point (Std.ExtTreeSet.mem_toList.1 mem))⟩
  constructor
  · exact Json.written_record (by
      simp [fields, outcome.written, states.written, findings.written, returns.written,
        unreachable.written])
  · rw [ofJson, toJson, Json.visitRecord_record (by simp [fields]) (by simp)]
    exact foldlM_readField (Json.toText_text _) outcome.read (Json.toNat_nat fits.iterations)
      states.read findings.read returns.read unreachable.read

/-! ## States of an analysis -/

namespace AliasClasses

variable {a b : AliasClasses} {x y : Slot}

theorem fits_empty : empty.Fits := by
  intro c hc
  simp [empty] at hc

theorem Fits.classOf (fits : a.Fits) (hx : x.Fits) : ∀ slot ∈ a.classOf x, slot.Fits := by
  intro slot mem
  unfold AliasClasses.classOf at mem
  cases found : a.find? x with
  | none =>
    rw [found, Option.getD_none, mem_singleton_iff] at mem
    exact mem ▸ hx
  | some c =>
    rw [found, Option.getD_some] at mem
    exact fits c (find?_mem found).1 slot mem

theorem Fits.invalidate (fits : a.Fits) (x : Slot) : (a.invalidate x).Fits := by
  cases found : a.find? x with
  | none => rwa [AliasClasses.invalidate, found]
  | some c =>
    intro d hd slot mem
    rw [mem_classes_invalidate found] at hd
    rcases hd with ⟨-, hd⟩ | ⟨rfl, -⟩
    · exact fits d hd slot mem
    · exact fits c (find?_mem found).1 slot (Std.ExtTreeSet.mem_of_mem_erase mem)

theorem Fits.union (fits : a.Fits) (hx : x.Fits) (hy : y.Fits) : (a.union x y).Fits := by
  cases apart : a.areAliased x y with
  | true => rwa [AliasClasses.union, if_pos apart]
  | false =>
    intro d hd slot mem
    rw [mem_classes_union apart] at hd
    rcases hd with rfl | ⟨-, -, hd⟩
    · rcases Std.ExtTreeSet.mem_union_iff.1 mem with mem | mem
      · exact fits.classOf hx slot mem
      · exact fits.classOf hy slot mem
    · exact fits d hd slot mem

theorem Fits.intersect (fits : a.Fits) (b : AliasClasses) : (a.intersect b).Fits := by
  intro c hc slot mem
  obtain ⟨d, hd, e, -, rfl, -⟩ := mem_classes_intersect.1 hc
  exact fits d hd slot (Std.ExtTreeSet.mem_inter_iff.1 mem).1

end AliasClasses

/-- The discipline of states that survive: intervals are canonical and widths are machine numbers.
Alias classes need not be disjoint. -/
def Discipline.storable : Discipline where
  Occurs := Slot.Fits
  Value := Interval.Canonical
  Fact := Interval.Canonical
  Classes := AliasClasses.Fits

theorem Discipline.lawful_storable : Discipline.storable.Lawful where
  closed := Interval.closed_of_canonical id
  fact h _ := h
  value h := h
  occurs classes hx mem := classes.classOf hx _ mem
  invalidate x classes := classes.invalidate x
  union classes hx hy := classes.union hx hy
  intersect classes _ := classes.intersect _

theorem State.Obeys.fits {s : State} (h : s.Obeys .storable) : s.Fits :=
  ⟨fun _ _ entry => h.occurs entry, h.classes⟩

/-- The states of a solution survive if the one at the entry does. -/
theorem Problem.Solves.storable {p : Problem} {options : Options} {initial : State}
    {solution : Solution} (ready : p.Ready) (solves : p.Solves options initial solution)
    (start : initial.Obeys .storable) {v : Nat} {s : State} (found : solution.states[v]? = some s) :
    s.Obeys .storable := by
  apply solves.obeys ready Discipline.lawful_storable AliasClasses.fits_empty _ start found
  intro v point located slot mem
  exact Width.lt_of_isValid ((ready.valid.sorted located).valid_of_mem_slots mem)

/-! ## Reports of an analysis -/

namespace Procedure

variable {p : Procedure} {initial : State} {options : Options} {report : Report}

section Indices

variable (c : p.graph.graph.Consistent) (indices : ∀ v ∈ p.graph.graph.vertices, v < 2 ^ 64)
include c indices

theorem Finds.fits {index : Nat} {s : State} {finding : Finding} (h : p.Finds index s finding) :
    finding.Fits := by
  cases h with
  | @edge _ _ edge _ _ joined _ same =>
    have present := mem_iff_exists_getElem?.2 ⟨edge, joined⟩
    have head : edge.head = index := (c.ends joined).1
    subst same head
    exact ⟨indices _ (c.head_mem present), indices _ (c.tail_mem present)⟩
  | access located _ found =>
    obtain ⟨rfl, kind, -⟩ := accessFinding?_eq_some found
    refine ⟨indices _ (mem_iff_exists_getElem?.2 ⟨_, located⟩), ?_⟩
    rw [kind]
    trivial

theorem fits_of_examineAll {solution : Solution}
    (vertices : ∀ {v : Nat} {s : State}, solution.states[v]? = some s → v ∈ p.graph.graph.vertices)
    {entry : Nat} (valid : p.graph.Valid entry) {examinations : List Examination}
    (h : p.examineAll solution = .ok examinations) :
    ∀ finding ∈ examinations.flatMap Examination.findings, finding.Fits := by
  intro finding mem
  rcases finds_of_examineAll c vertices h mem with ⟨index, s, -, found⟩ | ⟨entered, kind⟩
  · exact found.fits c indices
  · obtain rfl := Option.some.inj (valid.entry_eq.symm.trans entered)
    refine ⟨indices _ valid.entry_mem, ?_⟩
    rw [kind]
    trivial

end Indices

/-- What an analysis reports of machine numbers and canonical intervals is of such again. -/
theorem fits_of_analyze (built : p.graph.Built) (indices : ∀ v ∈ p.graph.graph.vertices, v < 2 ^ 64)
    (aliases : initial.aliases.Fits)
    (canonical : ∀ (slot : Slot) (i : Interval), initial.values[slot]? = some i → i.Canonical)
    (counted : options.maxIterations < 2 ^ 64) (h : p.analyze initial options = .ok report) :
    report.Fits := by
  have accepted := (checks_of_analyze h).2.1
  have start : initial.Obeys .storable := by
    refine obeys_of_checkInitial accepted (fun slot i entry => ?_) canonical aliases
    exact Width.lt_of_isValid (checkFact_eq_ok (checkFact_of_checkInitial accepted entry)).1
  obtain ⟨problem, solution, rfl, ready, solves, reported⟩ := exists_solution_of_analyze built h
  obtain ⟨examinations, values, examined, returned, rfl⟩ := report_eq_ok reported
  constructor
  case iterations => exact solves.solved.iterations_le.1.trans_lt counted
  case point =>
    intro point mem
    obtain ⟨s, found⟩ := mem_iff_exists_getElem?.1 mem
    exact indices point (solves.vertices found)
  case state =>
    intro point s found
    exact (solves.storable ready start found).fits
  case canonical =>
    intro point s found slot i entry
    exact (solves.storable ready start found).fact entry
  case finding =>
    intro finding mem
    exact fits_of_examineAll ready.consistent indices solves.vertices ready.valid examined finding
      (mem_sortStable.1 mem)
  case returned =>
    intro point mem
    obtain ⟨i, found⟩ := mem_iff_exists_getElem?.1 mem
    obtain ⟨s, -, -, there, -⟩ := exists_of_returns returned found
    exact indices point (solves.vertices there)
  case returns =>
    intro point i found
    obtain ⟨s, there, value, held, located, operation, rfl⟩ := exists_of_returns returned found
    have sorted := ready.valid.sorted located
    rw [operation] at sorted
    exact (solves.storable ready start held).eval Discipline.lawful_storable
      (sorted.read (by simp [Operation.operandsRead]))
  case unreachable =>
    intro point mem
    exact indices point (mem_unreached.1 mem).1

/-- Reports survive being written as a text and read: whatever an analysis reports is read back, from
every initial state of canonical intervals, with any alias classes. Indices, the widths of aliased slots
and the budget are machine numbers. A state whose widths are machine numbers survives exactly if its
intervals are canonical. -/
theorem reports_read_back :
    (∀ {p : Procedure} {initial : State} {options : Options} {report : Report}, p.graph.Built →
      (∀ v ∈ p.graph.graph.vertices, v < 2 ^ 64) → initial.aliases.Fits →
      (∀ (slot : Slot) (i : Interval), initial.values[slot]? = some i → i.Canonical) →
      options.maxIterations < 2 ^ 64 → p.analyze initial options = .ok report →
      Json.readText (Report.ofJson .text) report.toJson.render = .ok report) ∧
    ∀ {s : State}, s.Fits →
      (Json.readText (State.ofJson .text) s.toJson.render = .ok s ↔
        ∀ (slot : Slot) (i : Interval), s.values[slot]? = some i → i.Canonical) := by
  constructor
  · intro p initial options report built indices aliases canonical counted analysed
    have survives := Report.survives
      (fits_of_analyze built indices aliases canonical counted analysed) .text
    rw [Json.readText_render survives.written]
    exact survives.read
  · intro s fits
    constructor
    · intro read
      obtain ⟨json, read⟩ := Json.exists_of_readText read
      exact State.canonical_ofJson read
    · intro canonical
      have survives := State.survives fits canonical .text
      rw [Json.readText_render survives.written]
      exact survives.read

/-- Two slots, one of which has a name that cannot be written as it is, with alias classes that cross
each other. -/
def crossedFacts : State where
  values := {(⟨"a", 32⟩, .range 32 3 5), (⟨"the \"b\"", 32⟩, .top 32)}
  aliases := ⟨{∅, {⟨"a", 32⟩, ⟨"the \"b\"", 32⟩}, {⟨"a", 32⟩, ⟨"c", 70⟩}}⟩

theorem crossedFacts_fits : crossedFacts.Fits where
  slot slot i entry := by
    have all : ∀ entry ∈ crossedFacts.values.toList, entry.1.bits < 2 ^ 64 := by decide
    exact all (slot, i) (Std.ExtTreeMap.mem_toList_iff_getElem?_eq_some.2 entry)
  aliases c hc slot mem := by
    have all : ∀ c ∈ crossedFacts.aliases.classes.toList, ∀ slot ∈ c.toList, slot.bits < 2 ^ 64 := by
      decide
    exact all c (Std.ExtTreeSet.mem_toList.2 hc) slot (Std.ExtTreeSet.mem_toList.2 mem)

theorem crossedFacts_canonical (slot : Slot) (i : Interval)
    (entry : crossedFacts.values[slot]? = some i) : i.Canonical := by
  have all : ∀ entry ∈ crossedFacts.values.toList, entry.2.Canonical := by decide
  exact all (slot, i) (Std.ExtTreeMap.mem_toList_iff_getElem?_eq_some.2 entry)

/-- The report on the counting loop is read back from crossed facts, and so are the facts. A full range
that is not `top` is not read back. -/
theorem counter_report_read_back :
    (∃ report, counter.analyze crossedFacts {} = .ok report ∧
      Json.readText (Report.ofJson .text) report.toJson.render = .ok report) ∧
    Json.readText (State.ofJson .text) crossedFacts.toJson.render = .ok crossedFacts ∧
    (∃ s : State, s.Fits ∧ Json.readText (State.ofJson .text) s.toJson.render ≠ .ok s) := by
  refine ⟨?_, ?_, ?_⟩
  · obtain ⟨summaries, -, valid⟩ := checks_counter
    have facts : counter.checkInitial crossedFacts = .ok () := by decide
    obtain ⟨-, report, -, -, analysed⟩ := exists_analyze_of_checks built_counter summaries facts valid
    have indices : ∀ v ∈ counter.graph.graph.vertices.keys, v < 2 ^ 64 := by decide
    exact ⟨report, analysed, reports_read_back.1 built_counter
      (fun v mem => indices v (Std.ExtTreeMap.mem_keys.2 mem)) crossedFacts_fits.aliases
      crossedFacts_canonical (by decide) analysed⟩
  · exact (reports_read_back.2 crossedFacts_fits).2 crossedFacts_canonical
  · let s : State := ⟨{(⟨"a", 8⟩, .range 8 (-128) 127)}, .empty⟩
    have fits : s.Fits := by
      refine ⟨fun slot i entry => ?_, AliasClasses.fits_empty⟩
      obtain ⟨rfl, -⟩ := getElem?_singleton_eq_some.1 entry
      show 8 < 2 ^ 64
      omega
    refine ⟨s, fits, fun read => ?_⟩
    have canonical := (reports_read_back.2 fits).1 read ⟨"a", 8⟩ (.range 8 (-128) 127)
      (getElem?_singleton_eq_some.2 ⟨rfl, rfl⟩)
    revert canonical
    decide

end Procedure

end RangeFlow
