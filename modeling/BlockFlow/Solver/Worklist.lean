import BlockFlow.Solver.Equations
import BlockFlow.Solver.Schedule
import BlockFlow.Solver.Sweep

/-!
# Worklist sweeps

The facts at the start of every block are remembered. A sweep visits only the blocks that are marked
dirty, and a block is marked when the facts at the start of one of its successors change; the
marks follow the predecessor lists, whose entries are looked up only then.
-/

namespace BlockFlow

variable {α : Type} [FactOrder α] {n : Nat}

/-- The state of a worklist run. -/
structure Worklist (α : Type) [FactOrder α] (n : Nat) where
  out : FactSets α n
  /-- The facts at the start of every block, as last computed. -/
  liveIn : FactSets α n
  /-- The blocks to be recomputed when their turn comes. -/
  dirty : Vector Bool n
  /-- Whether the sweep under way has changed a set. -/
  changed : Bool
  /-- The number of blocks recomputed in all sweeps. -/
  visits : Nat

namespace Worklist

/-- Every set is empty at first and every scheduled block is dirty. -/
def start (eqs : Equations α n) (schedule : Schedule n) : Worklist α n where
  out := Vector.replicate n ∅
  liveIn := eqs.map (·.transfer ∅)
  dirty := schedule.foldl (fun dirty v ↦ replaceRow dirty v.block true) (Vector.replicate n false)
  changed := false
  visits := 0

/-- Marks the listed blocks, from left to right. -/
def mark (dirty : Vector Bool n) (blocks : List BlockId) : Except SolveError (Vector Bool n) :=
  blocks.foldlM (fun dirty block ↦ do
    let row ← rowOf n block
    return replaceRow dirty row true) dirty

/-- Recomputes the set of one block if it is dirty. -/
def visit (eqs : Equations α n) (state : Worklist α n) (v : Visit n) :
    Except SolveError (Worklist α n) :=
  if state.dirty.get v.block then
    let state := { state with
      dirty := replaceRow state.dirty v.block false
      visits := state.visits + 1 }
    let demand := FactSet.join (v.successors.map fun s ↦ state.liveIn.get s)
    if demand = state.out.get v.block then .ok state
    else
      let state := { state with out := replaceRow state.out v.block demand, changed := true }
      let entering := (eqs.get v.block).transfer demand
      if entering = state.liveIn.get v.block then .ok state
      else do
        let dirty ← mark state.dirty v.predecessors
        return { state with liveIn := replaceRow state.liveIn v.block entering, dirty }
  else .ok state

/-- Gives every scheduled block its turn. -/
def sweep (eqs : Equations α n) (schedule : Schedule n) (state : Worklist α n) :
    Except SolveError (Worklist α n) :=
  schedule.foldlM (visit eqs) { state with changed := false }

/-- Sweeps until nothing changes, at most `cap` times. -/
def run (eqs : Equations α n) (schedule : Schedule n) (cap : Nat) :
    Except SolveError (Worklist α n × Nat) :=
  sweepToRest (sweep eqs schedule) changed (.iterationLimit cap schedule.length) cap 0
    (start eqs schedule)

end Worklist

end BlockFlow
