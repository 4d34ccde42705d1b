import BlockFlow.Solver.Equations
import BlockFlow.Solver.Schedule
import BlockFlow.Solver.Sweep

/-!
# Round-robin sweeps

Every sweep recomputes the set of every scheduled block from the sets of its successors, in place:
later visits of a sweep see what earlier ones wrote.
-/

namespace BlockFlow

variable {α : Type} [FactOrder α] {n : Nat}

/-- What the successors of a visited block demand of its end: the union of the facts at their
starts. -/
def Visit.demand (v : Visit n) (eqs : Equations α n) (out : FactSets α n) : FactSet α :=
  FactSet.join (v.successors.map fun s ↦ (eqs.get s).transfer (out.get s))

/-- A fact is demanded of a block exactly if it holds at the start of a successor. -/
theorem Visit.mem_demand {v : Visit n} {eqs : Equations α n} {out : FactSets α n} {f : α} :
    f ∈ v.demand eqs out ↔ ∃ s ∈ v.successors, f ∈ (eqs.get s).transfer (out.get s) := by
  simp only [demand, FactSet.mem_join, List.mem_map]
  constructor
  · rintro ⟨_, ⟨s, hs, rfl⟩, hf⟩
    exact ⟨s, hs, hf⟩
  · rintro ⟨s, hs, hf⟩
    exact ⟨_, ⟨s, hs, rfl⟩, hf⟩

/-- The state of a round-robin run. -/
structure RoundRobin (α : Type) [FactOrder α] (n : Nat) where
  out : FactSets α n
  /-- Whether the sweep under way has changed a set. -/
  changed : Bool
  /-- The number of visits of all sweeps. -/
  visits : Nat

namespace RoundRobin

/-- Every set is empty at first. -/
def start : RoundRobin α n where
  out := Vector.replicate n ∅
  changed := false
  visits := 0

/-- Recomputes the set of one block. -/
def visit (eqs : Equations α n) (state : RoundRobin α n) (v : Visit n) : RoundRobin α n :=
  let demand := v.demand eqs state.out
  if demand = state.out.get v.block then { state with visits := state.visits + 1 }
  else { out := replaceRow state.out v.block demand, changed := true, visits := state.visits + 1 }

/-- Visits every scheduled block once. -/
def sweep (eqs : Equations α n) (schedule : Schedule n) (state : RoundRobin α n) :
    RoundRobin α n :=
  schedule.foldl (visit eqs) { state with changed := false }

/-- Sweeps until nothing changes, at most `cap` times. -/
def run (eqs : Equations α n) (schedule : Schedule n) (cap : Nat) :
    Except SolveError (RoundRobin α n × Nat) :=
  sweepToRest (fun state ↦ .ok (sweep eqs schedule state)) changed
    (.iterationLimit cap schedule.length) cap 0 start

end RoundRobin

end BlockFlow
