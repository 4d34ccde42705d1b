import BlockFlow.Proofs.Liveness.Outcome

/-!
# Procedures with other code

Two procedures whose blocks differ in their instructions alone have the same graph, and their blocks
are placed alike. Liveness sees the difference only through the summaries of the blocks: it reports
what the solver finds for them over the common graph.
-/

namespace BlockFlow

/-- The block with other instructions. -/
def BasicBlock.recode (change : Array Instruction → Array Instruction) (b : BasicBlock) :
    BasicBlock :=
  { b with instructions := change b.instructions }

namespace Procedure

/-- The blocks of the second procedure are those of the first one with other instructions. Nothing
is said about names and values. -/
def RecodedBy (change : Array Instruction → Array Instruction) (p q : Procedure) : Prop :=
  q.blocks = p.blocks.map (BasicBlock.recode change)

namespace RecodedBy

variable {change : Array Instruction → Array Instruction} {p q : Procedure}
  (h : p.RecodedBy change q)

include h

/-- The blocks are listed in the same order. -/
theorem toList_blocks : q.blocks.toList = p.blocks.toList.map (BasicBlock.recode change) := by
  rw [show q.blocks = _ from h, Array.toList_map]

/-- The edges and the ids of the blocks are the same. -/
theorem graph_eq : q.graph = p.graph := by
  have hids : q.blockIds = p.blockIds := by
    rw [blockIds, blockIds, h.toList_blocks, List.map_map]
    rfl
  have hblock (b : BlockId) : q.block? b = (p.block? b).map (BasicBlock.recode change) := by
    rw [block?, block?, show q.blocks = _ from h, Array.getElem?_map]
  have hsuccessors : q.successors = p.successors := by
    funext b
    rw [successors, successors, hblock, Option.map_map]
    rfl
  have hpredecessors : q.predecessors = p.predecessors := by
    funext b
    rw [predecessors, predecessors, hblock, Option.map_map]
    rfl
  rw [graph, graph, hids, hsuccessors, hpredecessors]

/-- The same block is the first one that is misplaced. -/
theorem misplaced?_eq : Liveness.misplaced? q = Liveness.misplaced? p := by
  rw [Liveness.misplaced?, Liveness.misplaced?, h.toList_blocks, List.zipIdx_map,
    List.findSome?_map]
  rfl

end RecodedBy

end Procedure

namespace Liveness

variable {n : Nat}

/-- The summaries of the blocks, in order. -/
theorem toList_summaries (p : Procedure) :
    (summaries p).toList = p.blocks.toList.map summary := by
  simp [summaries]

/-- The report of a procedure, from the rows of a table and the sets that were found for them. -/
def reportFrom (p : Procedure) (eqs : Equations ValueId n) (out : FactSets ValueId n)
    (iterations : Nat) : Report where
  procedure := p.name
  blocks := (p.blocks.toList.zip (eqs.toList.zip out.toList)).map fun (b, e, out) ↦
    { block := b.id, name := b.name, ueVar := e.gen, varKill := e.kill, liveOut := out }
  iterations := iterations
  valueNames := (List.range p.values.size).map p.valueName

/-- Over placed blocks, the analysis reports what the solver finds for any table whose rows are the
summaries of the blocks. -/
theorem analyze_of_rows {p : Procedure} (h : misplaced? p = none) {eqs : Equations ValueId n}
    (heqs : eqs.toList = p.blocks.toList.map summary) (solver : Solver) :
    analyze solver p = (solver.solve p.graph eqs).map fun solution ↦
      reportFrom p eqs solution.out solution.iterations := by
  obtain rfl : n = p.blocks.size := by simpa using congrArg List.length heqs
  obtain rfl : eqs = summaries p := Vector.toList_inj.mp (heqs.trans (toList_summaries p).symm)
  exact analyze_eq h solver

/-- A misplaced block is all that is reported. -/
theorem analyze_of_misplaced {p : Procedure} {position : BlockId}
    (h : misplaced? p = some position) (solver : Solver) :
    analyze solver p = .error (.missingBlock position) := by
  have heqs : equations p = .error (.missingBlock position) := by
    rw [equations, h]
  rw [analyze, heqs]
  rfl

end Liveness

end BlockFlow
