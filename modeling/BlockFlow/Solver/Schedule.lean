import BlockFlow.FlowGraph
import BlockFlow.Solver.Error

/-!
# Schedules

A sweep visits the enumerated blocks in reverse order. Before the first sweep every enumerated block
and every successor of one is looked up in the table; what comes out is a schedule whose block
numbers are known to be rows, so a sweep has no look-up that can fail. Predecessors stay
unchecked, because only some runs follow them.
-/

namespace BlockFlow

/-- The row of a table of `n` rows that belongs to a block. -/
def rowOf (n block : Nat) : Except SolveError (Fin n) :=
  if h : block < n then .ok ⟨block, h⟩ else .error (.missingBlock block)

/-- A look-up succeeds exactly on the rows, and answers the row of its block. -/
theorem rowOf_eq_ok_iff {n block : Nat} {r : Fin n} :
    rowOf n block = .ok r ↔ block = r := by
  unfold rowOf
  constructor
  · intro h
    split at h
    · cases h
      rfl
    · cases h
  · rintro rfl
    rw [dif_pos r.isLt]

/-- A look-up fails exactly past the last row, and names its block. -/
theorem rowOf_eq_error_iff {n block : Nat} {error : SolveError} :
    rowOf n block = .error error ↔ n ≤ block ∧ error = .missingBlock block := by
  unfold rowOf
  constructor
  · intro h
    split at h
    · cases h
    · cases h
      exact ⟨by omega, rfl⟩
  · rintro ⟨h, rfl⟩
    rw [dif_neg (by omega)]

/-- A block that a sweep visits, with its neighbours. -/
structure Visit (n : Nat) where
  block : Fin n
  successors : List (Fin n)
  predecessors : List BlockId

/-- The visits of one sweep, in order. -/
abbrev Schedule (n : Nat) : Type := List (Visit n)

namespace FlowGraph

/-- Looks up a block and then its successors, from left to right. -/
def visit (g : FlowGraph) (n : Nat) (block : BlockId) : Except SolveError (Visit n) := do
  let row ← rowOf n block
  let successors ← (g.successors block).mapM (rowOf n)
  return { block := row, successors, predecessors := g.predecessors block }

/-- The schedule of a graph over a table of `n` rows. The first block in enumeration order that has
no row, a block standing before its successors, is reported as missing. -/
def schedule (g : FlowGraph) (n : Nat) : Except SolveError (Schedule n) := do
  let visits ← g.blocks.mapM (g.visit n)
  return visits.reverse

end FlowGraph

end BlockFlow
