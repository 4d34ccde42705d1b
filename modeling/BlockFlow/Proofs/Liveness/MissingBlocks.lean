import BlockFlow.Proofs.Liveness.Outcome
import BlockFlow.Proofs.Solver.Indexed

/-!
# Missing blocks

A graph may enumerate blocks that have no row, lead to such blocks or list them as predecessors, and
a procedure read from a file may carry any block ids. Main statement: no such graph makes an
analysis use an index that is out of bounds, and each fault is reported as it should be. A block
that is mentioned and has no row is reported before the first sweep, the first one first; past that,
only the worklist reports a block, and it is a predecessor without a row; and a procedure whose
blocks do not carry their positions is rejected before its graph is looked at.
-/

namespace BlockFlow

/-- Where there is a schedule, only the worklist reports a missing block: a predecessor of an
enumerated block that has no row. -/
theorem Solver.predecessor_of_missingBlock {α : Type} [FactOrder α] {n : Nat} {solver : Solver}
    {g : FlowGraph} {eqs : Equations α n} {schedule : Schedule n}
    (hg : g.schedule n = .ok schedule) {b : BlockId}
    (h : solver.solve g eqs = .error (.missingBlock b)) :
    solver.strategy = .worklist ∧ n ≤ b ∧ ∃ c ∈ g.blocks, b ∈ g.predecessors c := by
  obtain ⟨strategy, cap⟩ := solver
  cases strategy with
  | roundRobin =>
    rw [solve_roundRobin hg, map_eq_error_iff, RoundRobin.run_eq_error_iff] at h
    cases h.1
  | worklist =>
    rw [solve_worklist hg, map_eq_error_iff] at h
    rcases Worklist.exists_of_run_eq_error h with hcap | ⟨v, hv, q, hq, hmissing, herror⟩
    · cases hcap
    · cases herror
      rw [FlowGraph.predecessors_eq hg hv] at hq
      exact ⟨rfl, hmissing, v.block, (FlowGraph.visit_of_mem_schedule hg hv).1, hq⟩

/-- The block at the position carries another id, and each block before it carries its own. -/
structure Procedure.FirstMisplaced (p : Procedure) (position : BlockId) : Prop where
  misplaced : ∃ b, p.block? position = some b ∧ b.id ≠ position
  placed_before : ∀ i < position, ∀ b, p.block? i = some b → b.id = i

namespace Liveness

variable {p : Procedure}

/-- The first misplaced block is found. -/
theorem misplaced?_eq_some {position : BlockId} (h : p.FirstMisplaced position) :
    misplaced? p = some position := by
  obtain ⟨b, hb, hid⟩ := h.misplaced
  obtain ⟨hlt, rfl⟩ := Array.getElem?_eq_some_iff.mp hb
  have hlength : position < p.blocks.toList.zipIdx.length := by simpa using hlt
  unfold misplaced?
  rw [List.findSome?_eq_some_iff]
  refine ⟨p.blocks.toList.zipIdx.take position, (p.blocks[position], position),
    p.blocks.toList.zipIdx.drop (position + 1), ?_, if_neg hid, ?_⟩
  · have hentry : p.blocks.toList.zipIdx[position] = (p.blocks[position], position) := by simp
    rw [← hentry, List.getElem_cons_drop, List.take_append_drop]
  · intro x hx
    obtain ⟨i, hi, rfl⟩ := List.mem_take_iff_getElem.mp hx
    have hbefore : i < position := (Nat.lt_min.mp hi).1
    have hsize : i < p.blocks.size := Nat.lt_trans hbefore hlt
    have hplaced := h.placed_before i hbefore p.blocks[i] (Array.getElem?_eq_getElem hsize)
    simp [hplaced]

/-- The first misplaced block is reported, whatever the solver and the edges are. -/
theorem analyze_of_firstMisplaced {position : BlockId} (h : p.FirstMisplaced position)
    (solver : Solver) : analyze solver p = .error (.missingBlock position) := by
  have heqs : equations p = .error (.missingBlock position) := by
    rw [equations, misplaced?_eq_some h]
  rw [analyze, heqs]
  rfl

/-- The entry of a block, from the rows that are found under the id it carries. -/
def entryOf {n : Nat} (eqs : Equations ValueId n) (out : FactSets ValueId n) (b : BasicBlock) :
    BlockReport where
  block := b.id
  name := b.name
  ueVar := (eqs[b.id]?.map Equation.gen).getD ∅
  varKill := (eqs[b.id]?.map Equation.kill).getD ∅
  liveOut := out[b.id]?.getD ∅

/-- The analysis that goes by indices. -/
def analyzeIndexed (solver : Solver) (p : Procedure) : Except Stop Report := do
  let eqs ← (equations p).mapError .reported
  let solution ← Indexed.solve solver p.graph eqs
  return {
    procedure := p.name
    blocks := p.blocks.toList.map (entryOf eqs solution.out)
    iterations := solution.iterations
    valueNames := (List.range p.values.size).map p.valueName }

/-- Where blocks carry their positions, a report has for each block what is found under its id. -/
theorem map_entryOf (h : misplaced? p = none) (out : FactSets ValueId p.blocks.size)
    (iterations : Nat) :
    p.blocks.toList.map (entryOf (summaries p) out) = (reportOf p out iterations).blocks := by
  apply List.ext_getElem
  · simp [reportOf]
  · intro i hi hi'
    have hsize : i < p.blocks.size := by simpa using hi
    simp [entryOf, reportOf, id_eq_position h i hsize, hsize]

/-- The analysis that goes by indices answers as the one that goes by positions. -/
theorem analyzeIndexed_eq (solver : Solver) (p : Procedure) :
    analyzeIndexed solver p = (analyze solver p).mapError .reported := by
  cases h : misplaced? p with
  | some position =>
    have heqs : equations p = .error (.missingBlock position) := by
      rw [equations, h]
    rw [analyzeIndexed, analyze, heqs]
    rfl
  | none =>
    have heqs : equations p = .ok (summaries p) := by
      rw [equations, h]
      rfl
    rw [analyzeIndexed, heqs, analyze_eq h]
    change (Indexed.solve solver p.graph (summaries p) >>= _) = _
    rw [Indexed.solve_eq]
    cases solver.solve p.graph (summaries p) with
    | error error => rfl
    | ok solution =>
      change Except.ok { reportOf p solution.out solution.iterations with
        blocks := p.blocks.toList.map (entryOf (summaries p) solution.out) } = _
      rw [map_entryOf h solution.out solution.iterations]
      rfl

/-- Over any graph, table and procedure, and under any solver:
* the solver and the analysis that go by indices answer as those that do not, so no index they use
  is out of bounds;
* the first block that is mentioned and has no row, an enumerated block standing before its
  successors, is reported whatever the strategy and the cap are;
* where every block that is mentioned has a row, only a worklist run reports a missing block, and
  it is a predecessor of an enumerated block that has no row;
* the first block of a procedure that does not carry its position is reported by its position,
  whatever else is wrong. -/
theorem missing_blocks_exact {α : Type} [FactOrder α] {n : Nat} (solver : Solver) (g : FlowGraph)
    (eqs : Equations α n) (p : Procedure) :
    Indexed.solve solver g eqs = (solver.solve g eqs).mapError .reported ∧
    analyzeIndexed solver p = (analyze solver p).mapError .reported ∧
    (∀ b, g.mentioned.find? (n ≤ ·) = some b → solver.solve g eqs = .error (.missingBlock b)) ∧
    (g.mentioned.find? (n ≤ ·) = none → ∀ b, solver.solve g eqs = .error (.missingBlock b) →
      solver.strategy = .worklist ∧ n ≤ b ∧ ∃ c ∈ g.blocks, b ∈ g.predecessors c) ∧
    ∀ position, p.FirstMisplaced position → analyze solver p = .error (.missingBlock position) := by
  refine ⟨Indexed.solve_eq solver g eqs, analyzeIndexed_eq solver p, ?_, ?_,
    fun position h ↦ analyze_of_firstMisplaced h solver⟩
  · intro b hb
    exact Solver.solve_of_schedule_error (FlowGraph.schedule_eq_error_iff.mpr ⟨b, hb, rfl⟩)
  · intro hnone b hb
    cases hg : g.schedule n with
    | error error =>
      obtain ⟨c, hc, -⟩ := FlowGraph.schedule_eq_error_iff.mp hg
      rw [hnone] at hc
      cases hc
    | ok schedule => exact Solver.predecessor_of_missingBlock hg hb

/-- Three enumerated blocks over two rows. The third one has no row, but it comes after an edge of
the first one to another block that has none. -/
def stray : FlowGraph where
  blocks := [1, 0, 9]
  successors b := if b = 1 then [0, 7] else [8]
  predecessors _ := []

/-- An edge between two blocks that have rows. A predecessor of its first block has none. -/
def haunted : FlowGraph where
  blocks := [0, 1]
  successors b := if b = 0 then [1] else []
  predecessors b := if b = 0 then [5] else [0]

/-- The last two blocks carry each other's position, and the first one leads to a block that is not
there. -/
def crossed : Procedure where
  name := "crossed"
  values := #[]
  blocks := #[
    { id := 0, name := "entry", instructions := #[], successors := [9], predecessors := [] },
    { id := 2, name := "left", instructions := #[], successors := [], predecessors := [] },
    { id := 1, name := "right", instructions := #[], successors := [], predecessors := [] }]

/-- A missing block of each kind. -/
theorem stray_missing_blocks :
    stray.mentioned.find? (2 ≤ ·) = some 7 ∧
    (∀ strategy, Solver.solve ⟨strategy, 0⟩ stray Solver.tangleEquations =
      .error (.missingBlock 7)) ∧
    haunted.mentioned.find? (2 ≤ ·) = none ∧
    Solver.solve ⟨.worklist, 3⟩ haunted Solver.tangleEquations = .error (.missingBlock 5) ∧
    (∃ c ∈ haunted.blocks, 5 ∈ haunted.predecessors c) ∧
    crossed.FirstMisplaced 1 ∧
    analyze ⟨.worklist, 0⟩ crossed = .error (.missingBlock 1) := by
  have hstray : stray.mentioned.find? (2 ≤ ·) = some 7 := by decide
  have hhaunted : haunted.mentioned.find? (2 ≤ ·) = none := by decide
  have hfails : (Solver.solve ⟨.worklist, 3⟩ haunted Solver.tangleEquations).map (fun _ ↦ ()) =
      .error (.missingBlock 5) := by decide +kernel
  have hmissing := map_eq_error_iff.mp hfails
  have hcrossed : crossed.FirstMisplaced 1 := by
    refine ⟨⟨crossed.blocks[1], rfl, by decide⟩, ?_⟩
    rintro i hi b hb
    obtain rfl : i = 0 := Nat.lt_one_iff.mp hi
    cases hb
    rfl
  obtain ⟨-, -, -, hpredecessor, hfirst⟩ :=
    missing_blocks_exact ⟨.worklist, 3⟩ haunted Solver.tangleEquations crossed
  refine ⟨hstray, ?_, hhaunted, hmissing, (hpredecessor hhaunted 5 hmissing).2.2, hcrossed, ?_⟩
  · intro strategy
    exact (missing_blocks_exact ⟨strategy, 0⟩ stray Solver.tangleEquations crossed).2.2.1 7 hstray
  · exact (missing_blocks_exact ⟨.worklist, 0⟩ stray Solver.tangleEquations crossed).2.2.2.2 1
      hcrossed

end Liveness

end BlockFlow
