import BlockFlow.Procedure.Effect
import BlockFlow.Solver

/-!
# What a block does to liveness

A block uses a variable if it loads it before storing to it, and kills it if it stores to it at all.
Operators touch no variable.
-/

namespace BlockFlow.Liveness

/-- Adds one effect to the summary of the effects before it. -/
def extend (summary : Equation ValueId) : Effect → Equation ValueId
  | .load address =>
    if address ∈ summary.kill then summary
    else { summary with gen := summary.gen.insert address }
  | .store _ address => { summary with kill := summary.kill.insert address }
  | _ => summary

/-- The upward-exposed uses of a block and the variables that it stores to. -/
def summary (b : BasicBlock) : Equation ValueId :=
  b.instructions.toList.foldl (fun s inst ↦ extend s inst.effect) {}

/-- The first position whose block carries another id. -/
def misplaced? (p : Procedure) : Option BlockId :=
  p.blocks.toList.zipIdx.findSome? fun (b, position) ↦
    if b.id = position then none else some position

/-- The summaries of all blocks. Each block has to carry its position as its id. -/
def equations (p : Procedure) : Except SolveError (Equations ValueId p.blocks.size) :=
  match misplaced? p with
  | some position => .error (.missingBlock position)
  | none => .ok (p.blocks.toVector.map summary)

end BlockFlow.Liveness
