import BlockFlow.Procedure

/-!
# Control-flow graphs

What the solver asks of a graph: the blocks in a fixed order, and the neighbours of a block. Nothing
is required of the answers; in particular the two edge lists need not agree.
-/

namespace BlockFlow

/-- A control-flow graph by its enumeration and its two edge lists. -/
structure FlowGraph where
  /-- The blocks in enumeration order; a block may be listed twice. -/
  blocks : List BlockId
  successors : BlockId → List BlockId
  predecessors : BlockId → List BlockId

/-- The graph of a procedure: the ids its blocks carry, with the edges found by position. -/
def Procedure.graph (p : Procedure) : FlowGraph where
  blocks := p.blockIds
  successors := p.successors
  predecessors := p.predecessors

namespace FlowGraph

/-- Every enumerated block is listed among the predecessors of each of its successors. -/
def EdgesAgree (g : FlowGraph) : Prop :=
  ∀ b ∈ g.blocks, ∀ s ∈ g.successors b, b ∈ g.predecessors s

end FlowGraph

end BlockFlow
