import BlockFlow.Liveness
import BlockFlow.Proofs.Liveness.Summary
import BlockFlow.Proofs.Procedure.Code
import BlockFlow.Proofs.Solver.LeastSolution
import Mathlib.Data.List.Chain

/-!
# Liveness along paths

A variable is live at the end of a block if some path from there, through one block or more, loads
it before storing to it. The variables that are live in this sense solve the equations of the
block summaries, and each path forces its exposed uses into every solution; so they are the least
solution, which is what the analysis reports.
-/

namespace BlockFlow

/-- A path leads from a block along edges through at least one further block. -/
def Procedure.Path (p : Procedure) (b : BlockId) (path : List BlockId) : Prop :=
  path ≠ [] ∧ (b :: path).IsChain fun b s ↦ s ∈ p.successors b

namespace Liveness

/-- Some path from the end of a block has an exposed use of the variable. -/
def LiveAfter (p : Procedure) (b : BlockId) (v : ValueId) : Prop :=
  ∃ path, p.Path b path ∧ Exposed v (path.flatMap p.code)

/-- A variable is live after a block if a successor uses it, or leaves it alone and is followed by
a use. -/
theorem liveAfter_iff (p : Procedure) (b : BlockId) (v : ValueId) :
    LiveAfter p b v ↔ ∃ s ∈ p.successors b,
      Exposed v (p.code s) ∨ LiveAfter p s v ∧ ¬Overwritten v (p.code s) := by
  constructor
  · rintro ⟨path, ⟨hne, hchain⟩, hexposed⟩
    cases path with
    | nil => exact absurd rfl hne
    | cons s rest =>
      rw [List.isChain_cons_cons] at hchain
      refine ⟨s, hchain.1, ?_⟩
      rw [List.flatMap_cons, exposed_append] at hexposed
      refine hexposed.imp_right ?_
      rintro ⟨hkept, hlater⟩
      refine ⟨⟨rest, ⟨?_, hchain.2⟩, hlater⟩, hkept⟩
      rintro rfl
      exact not_exposed_nil v hlater
  · rintro ⟨s, hs, hexposed | ⟨⟨rest, ⟨-, hchain⟩, hlater⟩, hkept⟩⟩
    · refine ⟨[s], ⟨by simp, List.isChain_pair.mpr hs⟩, ?_⟩
      simpa using hexposed
    · refine ⟨s :: rest, ⟨by simp, List.isChain_cons_cons.mpr ⟨hs, hchain⟩⟩, ?_⟩
      rw [List.flatMap_cons, exposed_append]
      exact .inr ⟨hkept, hlater⟩

/-! ### The solution of the summaries -/

/-- The summaries of the blocks by position. -/
def summaries (p : Procedure) : Equations ValueId p.blocks.size := p.blocks.toVector.map summary

/-- The row of a block is its summary. -/
theorem get_summaries (p : Procedure) (b : Fin p.blocks.size) :
    (summaries p).get b = summary p.blocks[b] := by
  rw [summaries, get_map]
  rfl

private theorem code_eq (p : Procedure) (b : Fin p.blocks.size) :
    p.code b = p.blocks[b].instructions.toList := by
  simp [Procedure.code, Procedure.block?]

/-- What enters a block, by its summary and by its code. -/
theorem mem_enters_summary (p : Procedure) (b : Fin p.blocks.size) (X : Set ValueId)
    (v : ValueId) : v ∈ ((summaries p).get b).enters X ↔
      Exposed v (p.code b) ∨ v ∈ X ∧ ¬Overwritten v (p.code b) := by
  rw [get_summaries, code_eq, ← mem_gen_summary, ← mem_kill_summary]
  rfl

/-- Blocks that are not misplaced carry their positions. -/
theorem id_eq_position {p : Procedure} (h : misplaced? p = none) (i : Nat)
    (hi : i < p.blocks.size) : p.blocks[i].id = i := by
  unfold misplaced? at h
  rw [List.findSome?_eq_none_iff] at h
  have hplaced := h (p.blocks[i], i) (by
    rw [List.mem_zipIdx_iff_getElem?]
    simp [hi])
  simpa using hplaced

/-- Blocks that are not misplaced are enumerated by their positions. -/
theorem blockIds_eq_range {p : Procedure} (h : misplaced? p = none) :
    p.blockIds = List.range p.blocks.size := by
  apply List.ext_getElem
  · simp [Procedure.blockIds]
  · intro i hi hi'
    have hsize : i < p.blocks.size := by simpa using hi'
    simpa [Procedure.blockIds] using id_eq_position h i hsize

/-- Where blocks carry their positions as ids, the least solution of the summaries holds at every
block the variables that are live after it. -/
theorem mem_leastSolution_iff {p : Procedure} (hids : p.blockIds = List.range p.blocks.size)
    (hcovered : p.graph.Covered p.blocks.size) {out : FactSets ValueId p.blocks.size}
    (hout : p.graph.IsLeastSolution (summaries p) out) (b : Fin p.blocks.size) (v : ValueId) :
    v ∈ out.get b ↔ LiveAfter p b v := by
  have hlisted (c : Fin p.blocks.size) : ↑c ∈ p.graph.blocks := by
    rw [Procedure.graph, hids]
    exact List.mem_range.mpr c.isLt
  constructor
  · apply hout.least fun c ↦ {v | LiveAfter p c v}
    rintro c - v ⟨s, hs, hv⟩
    exact (liveAfter_iff p c v).mpr ⟨s, hs, (mem_enters_summary p s _ v).mp hv⟩
  · rintro ⟨path, ⟨-, hchain⟩, hexposed⟩
    -- each block of the path puts what it exposes into the set of the block before it
    induction path generalizing b with
    | nil => exact absurd hexposed (not_exposed_nil v)
    | cons s rest ih =>
      rw [List.isChain_cons_cons] at hchain
      have hrow : s < p.blocks.size := (hcovered b (hlisted b)).2 s hchain.1
      refine hout.closed b (hlisted b) ⟨⟨s, hrow⟩, hchain.1, ?_⟩
      rw [mem_enters_summary]
      rw [List.flatMap_cons, exposed_append] at hexposed
      refine hexposed.imp_right ?_
      rintro ⟨hkept, hlater⟩
      exact ⟨ih ⟨s, hrow⟩ hlater hchain.2, hkept⟩

/-! ### Reports -/

/-- A report comes from a solution of the summaries of well-placed blocks. -/
theorem exists_solution_of_analyze {solver : Solver} {p : Procedure} {report : Report}
    (h : analyze solver p = .ok report) :
    misplaced? p = none ∧ ∃ solution, solver.solve p.graph (summaries p) = .ok solution ∧
      report.blocks = (List.finRange p.blocks.size).map fun b ↦
        { block := p.blocks[b].id, name := p.blocks[b].name,
          ueVar := ((summaries p).get b).gen, varKill := ((summaries p).get b).kill,
          liveOut := solution.out.get b } := by
  unfold analyze at h
  obtain ⟨eqs, heqs, h⟩ := bind_eq_ok_iff.mp h
  unfold equations at heqs
  split at heqs
  · cases heqs
  · next hplaced =>
    cases heqs
    obtain ⟨solution, hsolution, h⟩ := bind_eq_ok_iff.mp h
    cases h
    refine ⟨hplaced, solution, hsolution, ?_⟩
    apply List.ext_getElem
    · simp
    · intro i hi hi'
      have hsize : i < p.blocks.size := by simpa using hi'
      have hout : solution.out[i] = solution.out.get ⟨i, hsize⟩ := rfl
      simp [get_summaries, hout]

/-- For every procedure that a builder makes, and under every solver that finds an answer, the
report has one entry for each block, in order, and a variable is live at the end of a block exactly
if some path from there has a load of it that no store to it precedes. -/
theorem mem_liveOut_iff_path (name : String) (steps : List BuildStep) (p : Procedure)
    (solver : Solver) (report : Report) (hp : (Procedure.empty name).buildAll steps = .ok p)
    (h : analyze solver p = .ok report) :
    report.blocks.map BlockReport.block = List.range p.blocks.size ∧
    ∀ entry ∈ report.blocks, ∀ v, v ∈ entry.liveOut ↔
      ∃ path, p.Path entry.block path ∧ Exposed v (path.flatMap p.code) := by
  obtain ⟨hplaced, solution, hsolution, hblocks⟩ := exists_solution_of_analyze h
  have hids : p.blockIds = List.range p.blocks.size := blockIds_eq_range hplaced
  have hedges : p.graph.EdgesAgree := (Procedure.edgesMirrored_of_buildAll hp).edgesAgree
  obtain ⟨hcovered, hleast⟩ := Solver.isLeastSolution_of_solve hsolution fun _ ↦ hedges
  have hid (b : Fin p.blocks.size) : p.blocks[b].id = b := by
    have hget := congrArg (fun ids ↦ ids[b.val]?) hids
    simpa [Procedure.blockIds] using hget
  constructor
  · rw [hblocks, List.map_map]
    apply List.ext_getElem
    · simp
    · intro i hi hi'
      have hsize : i < p.blocks.size := by simpa using hi'
      simpa using hid ⟨i, hsize⟩
  · intro entry hentry v
    rw [hblocks, List.mem_map] at hentry
    obtain ⟨b, -, rfl⟩ := hentry
    dsimp only
    rw [hid b]
    exact mem_leastSolution_iff hids hcovered hleast b v

/-- A loop through two blocks, the second one with an edge to itself, and a block that nothing
leads to. Some operands are not in the arena, and some are missing. -/
def loopSteps : List BuildStep := [
  .value "x", .block "head", .block "body", .block "stray",
  .instruction 0 .load [0] none,
  .instruction 1 .store [9, 0] none, .instruction 1 .load [7] none,
  .instruction 1 .store [0] none, .instruction 2 .load [] none,
  .edge 0 1, .edge 1 1, .edge 1 0, .edge 2 0]

/-- The procedure that the steps of the loop build. -/
def loop : Procedure where
  name := "loop"
  values := #[⟨some "x", none⟩, ⟨none, some (0, 0)⟩, ⟨none, some (1, 0)⟩, ⟨none, some (1, 1)⟩,
    ⟨none, some (1, 2)⟩, ⟨none, some (2, 0)⟩]
  blocks := #[
    { id := 0, name := "head", instructions := #[⟨.load, [0], 1⟩], successors := [1]
      predecessors := [1, 2] },
    { id := 1, name := "body"
      instructions := #[⟨.store, [9, 0], 2⟩, ⟨.load, [7], 3⟩, ⟨.store, [0], 4⟩]
      successors := [1, 0], predecessors := [0, 1] },
    { id := 2, name := "stray", instructions := #[⟨.load, [], 5⟩], successors := [0]
      predecessors := [] }]

/-- The worklist finds what is live in the loop. -/
theorem loop_liveOut :
    (Procedure.empty "loop").buildAll loopSteps = .ok loop ∧
    ∃ report, analyze ⟨.worklist, 9⟩ loop = .ok report ∧
      report.blocks.map BlockReport.block = [0, 1, 2] ∧
      ∀ entry ∈ report.blocks, ∀ v, v ∈ entry.liveOut ↔
        ∃ path, loop.Path entry.block path ∧ Exposed v (path.flatMap loop.code) := by
  have hbuilt : (Procedure.empty "loop").buildAll loopSteps = .ok loop := by rfl
  have hsolved : (analyze ⟨.worklist, 9⟩ loop).isOk = true := by decide +kernel
  obtain ⟨report, h⟩ := exists_of_isOk hsolved
  exact ⟨hbuilt, report, h,
    mem_liveOut_iff_path "loop" loopSteps loop ⟨.worklist, 9⟩ report hbuilt h⟩

end Liveness

end BlockFlow
