import BlockFlow.Procedure

/-!
# How a dataflow problem can fail

Either the pass cap was reached before the sweeps came to rest, or a block that the graph mentions
has no equation. The second is a fault of whoever set up the problem.
-/

namespace BlockFlow

/-- Why a dataflow problem has no solution. -/
inductive SolveError where
  /-- No sweep among the first `limit` left all sets as they were. -/
  | iterationLimit (limit blocks : Nat)
  /-- A block of the graph has no equation. -/
  | missingBlock (block : BlockId)
  deriving DecidableEq, Repr

namespace SolveError

/-- The text of an error. -/
def message : SolveError → String
  | iterationLimit limit blocks =>
    s!"Fixpoint not reached within {limit} passes over {blocks} blocks (pass cap reached)"
  | missingBlock block => s!"Block {BlockId.label block} missing from dataflow equations"

/-- Whether the error shows a badly set up problem, not a low cap. -/
def isInvariantViolation : SolveError → Bool
  | iterationLimit _ _ => false
  | missingBlock _ => true

end SolveError

end BlockFlow
