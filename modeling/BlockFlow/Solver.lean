import BlockFlow.Event
import BlockFlow.Solver.RoundRobin
import BlockFlow.Solver.Worklist

/-!
# Solving backward dataflow problems

A solver finds the least sets that satisfy the equations of a table over a graph. Its two
strategies pass through the same sets, sweep by sweep, where the two edge lists of the graph agree;
they differ in how many blocks a sweep recomputes.
-/

namespace BlockFlow

/-- How a sweep chooses the blocks that it recomputes. -/
inductive Strategy where
  /-- Every block in every sweep. -/
  | roundRobin
  /-- Only blocks below which something has changed. -/
  | worklist
  deriving DecidableEq, Repr, Inhabited

/-- The name of a strategy in configurations and messages. -/
def Strategy.name : Strategy → String
  | roundRobin => "round_robin"
  | worklist => "worklist"

/-- The strategy of a name. -/
def Strategy.ofName? (name : String) : Option Strategy :=
  if name = "round_robin" then some roundRobin
  else if name = "worklist" then some worklist
  else none

/-- A strategy and a bound on the number of sweeps, the confirming one included. -/
structure Solver where
  strategy : Strategy := .roundRobin
  maxPasses : Nat := 1000
  deriving DecidableEq, Repr, Inhabited

/-- What a solver finds. -/
structure Solution (α : Type) [FactOrder α] (n : Nat) where
  out : FactSets α n
  /-- The number of sweeps, the confirming one included. -/
  iterations : Nat
  /-- The number of blocks recomputed in all sweeps. -/
  visits : Nat
  strategy : Strategy

/-- The least sets that satisfy the equations over the graph, unless a block has no row or the cap
is reached first. -/
def Solver.solve {α : Type} [FactOrder α] {n : Nat} (solver : Solver) (graph : FlowGraph)
    (eqs : Equations α n) : Except SolveError (Solution α n) := do
  let schedule ← graph.schedule n
  match solver.strategy with
  | .roundRobin =>
    let (final, iterations) ← RoundRobin.run eqs schedule solver.maxPasses
    return { out := final.out, iterations, visits := final.visits, strategy := .roundRobin }
  | .worklist =>
    let (final, iterations) ← Worklist.run eqs schedule solver.maxPasses
    return { out := final.out, iterations, visits := final.visits, strategy := .worklist }

/-- The event that announces a solution over a graph of so many enumerated blocks. -/
def Solution.event {α : Type} [FactOrder α] {n : Nat} (solution : Solution α n) (blocks : Nat) :
    Event :=
  .debug (s!"Backward fixpoint ({solution.strategy.name}) converged after " ++
    s!"{solution.iterations} passes ({solution.visits} block visits) over {blocks} blocks")

end BlockFlow
