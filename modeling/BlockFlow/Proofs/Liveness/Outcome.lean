import BlockFlow.Proofs.Liveness.Paths
import BlockFlow.Proofs.Solver.Threshold

/-!
# When liveness has an answer

Over a coherent procedure the analysis can fail only by its cap. How many sweeps it needs, and what
it then reports, depends neither on the cap nor on the strategy.
-/

namespace BlockFlow

namespace Procedure.Coherent

variable {p : Procedure} (hp : p.Coherent)

include hp

/-- Every block and every successor of one has a row in a table of all blocks. -/
theorem covered : p.graph.Covered p.blocks.size := by
  intro b hb
  rw [graph, hp.blockIds_eq, List.mem_range] at hb
  exact ⟨hb, hp.known b⟩

/-- No block carries another id than its position. -/
theorem misplaced?_eq_none : Liveness.misplaced? p = none := by
  unfold Liveness.misplaced?
  rw [List.findSome?_eq_none_iff]
  rintro ⟨b, i⟩ hmem
  have hb : p.block? i = some b := by
    simpa [block?] using List.mem_zipIdx_iff_getElem?.mp hmem
  simp [hp.placed i b hb]

end Procedure.Coherent

namespace Liveness

/-- The report of sets that were found in so many sweeps. -/
def reportOf (p : Procedure) (out : FactSets ValueId p.blocks.size) (iterations : Nat) :
    Report where
  procedure := p.name
  blocks := (p.blocks.toList.zip ((summaries p).toList.zip out.toList)).map fun (b, e, out) ↦
    { block := b.id, name := b.name, ueVar := e.gen, varKill := e.kill, liveOut := out }
  iterations := iterations
  valueNames := (List.range p.values.size).map p.valueName

/-- Over placed blocks, the analysis reports what the solver finds for their summaries. -/
theorem analyze_eq {p : Procedure} (h : misplaced? p = none) (solver : Solver) :
    analyze solver p = (solver.solve p.graph (summaries p)).map fun solution ↦
      reportOf p solution.out solution.iterations := by
  have heqs : equations p = .ok (summaries p) := by
    rw [equations, h]
    rfl
  rw [analyze, heqs]
  rfl

/-- Over a coherent procedure one number of sweeps and one report decide for every solver. -/
theorem exists_sweeps {p : Procedure} (hp : p.Coherent) :
    ∃ sweeps report, 1 ≤ sweeps ∧ report.iterations = sweeps ∧ ∀ strategy cap,
      (sweeps ≤ cap → analyze ⟨strategy, cap⟩ p = .ok report) ∧
      (cap < sweeps → analyze ⟨strategy, cap⟩ p = .error (.iterationLimit cap p.blocks.size)) := by
  obtain ⟨schedule, h⟩ := hp.covered.exists_schedule
  obtain ⟨sweeps, hrest⟩ := RoundRobin.exists_restsAt (summaries p) h
  have hedges : p.graph.EdgesAgree := hp.mirrored.edgesAgree
  have hrows : ∀ b ∈ p.graph.blocks, ∀ q ∈ p.graph.predecessors b, q < p.blocks.size :=
    fun b _ q hq ↦ hp.predecessors_lt b q hq
  have hblocks : p.graph.blocks.length = p.blocks.size := by
    simp [Procedure.graph, Procedure.blockIds]
  refine ⟨sweeps, reportOf p (RoundRobin.after (summaries p) schedule sweeps).out sweeps,
    hrest.pos, rfl, ?_⟩
  intro strategy cap
  rw [analyze_eq hp.misplaced?_eq_none]
  constructor
  · intro hcap
    obtain ⟨solution, hsolution, hcount, hout⟩ :=
      Solver.solve_of_le hedges hrows h hrest strategy hcap
    rw [hsolution, Except.map, hout, hcount]
  · intro hcap
    rw [Solver.solve_of_lt hedges hrows h hrest strategy hcap, hblocks]
    rfl

/-- The number of sweeps where the cap does not matter: from some cap on, the analysis answers
after so many. -/
def UncappedSweeps (strategy : Strategy) (p : Procedure) (sweeps : Nat) : Prop :=
  ∃ bound, ∀ cap, bound ≤ cap →
    ∃ report, analyze ⟨strategy, cap⟩ p = .ok report ∧ report.iterations = sweeps

/-- The procedure needs more sweeps than the cap of the solver admits. -/
def Exceeds (solver : Solver) (p : Procedure) : Prop :=
  ∃ sweeps, UncappedSweeps solver.strategy p sweeps ∧ solver.maxPasses < sweeps

/-- A number from which on every cap gives the same report is the number of sweeps if the report
says so. -/
private theorem uncappedSweeps_iff {strategy : Strategy} {p : Procedure} {report : Report}
    {bound : Nat} (h : ∀ cap, bound ≤ cap → analyze ⟨strategy, cap⟩ p = .ok report) (k : Nat) :
    UncappedSweeps strategy p k ↔ k = report.iterations := by
  constructor
  · rintro ⟨bound', h'⟩
    obtain ⟨report', hreport', rfl⟩ := h' (max bound bound') (by omega)
    rw [h (max bound bound') (by omega)] at hreport'
    cases hreport'
    rfl
  · rintro rfl
    exact ⟨bound, fun cap hcap ↦ ⟨report, h cap hcap, rfl⟩⟩

/-- A coherent procedure has one number of sweeps for both strategies. -/
theorem exists_uncappedSweeps {p : Procedure} (hp : p.Coherent) :
    ∃ sweeps, ∀ strategy, UncappedSweeps strategy p sweeps := by
  obtain ⟨sweeps, report, -, -, hcaps⟩ := exists_sweeps hp
  refine ⟨report.iterations, fun strategy ↦ ?_⟩
  exact (uncappedSweeps_iff (fun cap ↦ (hcaps strategy cap).1) _).mpr rfl

/-- Over a coherent procedure the analysis fails exactly if it needs more sweeps than its cap
admits, and then by its cap. -/
theorem analyze_eq_error_iff {p : Procedure} (hp : p.Coherent) (solver : Solver)
    (error : SolveError) :
    analyze solver p = .error error ↔
      Exceeds solver p ∧ error = .iterationLimit solver.maxPasses p.blocks.size := by
  obtain ⟨sweeps, report, -, rfl, hcaps⟩ := exists_sweeps hp
  have hexceeds : Exceeds solver p ↔ solver.maxPasses < report.iterations := by
    simp [Exceeds, uncappedSweeps_iff fun cap ↦ (hcaps solver.strategy cap).1]
  rw [hexceeds]
  by_cases hlt : solver.maxPasses < report.iterations
  · rw [(hcaps solver.strategy solver.maxPasses).2 hlt]
    simp [hlt, eq_comm]
  · rw [(hcaps solver.strategy solver.maxPasses).1 (by omega)]
    simp [hlt]

/-- Over a coherent procedure the strategy makes no difference. -/
theorem analyze_strategy {p : Procedure} (hp : p.Coherent) (strategy strategy' : Strategy)
    (cap : Nat) : analyze ⟨strategy, cap⟩ p = analyze ⟨strategy', cap⟩ p := by
  obtain ⟨sweeps, report, -, -, hcaps⟩ := exists_sweeps hp
  by_cases hcap : sweeps ≤ cap
  · rw [(hcaps strategy cap).1 hcap, (hcaps strategy' cap).1 hcap]
  · rw [(hcaps strategy cap).2 (by omega), (hcaps strategy' cap).2 (by omega)]

end Liveness

end BlockFlow
