import BlockFlow.Liveness.Report
import BlockFlow.Liveness.Summary

/-!
# Liveness

A variable is live at the end of a block if some path from there loads it before storing to it. The
summaries of the blocks are the equations of a backward dataflow problem over the graph of the
procedure.
-/

namespace BlockFlow.Liveness

/-- The liveness of a procedure. -/
def analyze (solver : Solver) (p : Procedure) : Except SolveError Report := do
  let eqs ← equations p
  let solution ← solver.solve p.graph eqs
  let blocks := p.blocks.toList.zip (eqs.toList.zip solution.out.toList)
  return {
    procedure := p.name
    blocks := blocks.map fun (b, e, out) ↦
      { block := b.id, name := b.name, ueVar := e.gen, varKill := e.kill, liveOut := out }
    iterations := solution.iterations
    valueNames := (List.range p.values.size).map p.valueName }

/-- The log of a liveness analysis. An analysis that fails writes nothing. -/
def events (solver : Solver) (p : Procedure) : List Event :=
  let solved := do
    let eqs ← equations p
    solver.solve p.graph eqs
  match solved with
  | .error _ => []
  | .ok solution => [
      solution.event p.blockIds.length,
      .info (s!"Liveness for {p.name}: {p.blocks.size} blocks, fixpoint after " ++
        s!"{solution.iterations} iterations")]

end BlockFlow.Liveness
