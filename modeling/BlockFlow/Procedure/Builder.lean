import BlockFlow.Procedure

/-!
# Building procedures

A builder is a procedure under construction. Values and blocks are allocated at the end of their
arenas, every instruction allocates its own result, and an edge is entered at both of its ends.
Naming a block that has not been allocated is the only mistake a caller can make; operands are
not looked up. An id is a position, however large: a builder whose ids are cut down to words of
thirty-two bits, `Procedure.buildAllWords`, makes the same procedures as long as they are
`Procedure.WithinWords`.
-/

namespace BlockFlow

/-- A block was named before it was allocated. -/
structure UnknownBlock where
  block : BlockId
  deriving DecidableEq, Repr

/-- One call to a builder. -/
inductive BuildStep where
  | value (name : String)
  | anonymousValue
  | block (name : String)
  | instruction (block : BlockId) (opcode : Opcode) (operands : List ValueId) (name : Option String)
  | edge (source target : BlockId)
  deriving DecidableEq, Repr

namespace Procedure

/-- The procedure with no values and no blocks. -/
def empty (name : String) : Procedure := { name, values := #[], blocks := #[] }

/-- Allocates a value and answers its id. -/
def addValue (p : Procedure) (v : Value) : Procedure × ValueId :=
  ({ p with values := p.values.push v }, p.values.size)

/-- Allocates a block without instructions and edges and answers its id. -/
def addBlock (p : Procedure) (name : String) : Procedure × BlockId :=
  let id := p.blocks.size
  let block := { id, name, instructions := #[], successors := [], predecessors := [] }
  ({ p with blocks := p.blocks.push block }, id)

/-- Appends an instruction to a block, allocates its result and answers the result's id. -/
def append (p : Procedure) (block : BlockId) (opcode : Opcode) (operands : List ValueId)
    (name : Option String) : Procedure × ValueId :=
  let position := ((p.block? block).map (·.instructions.size)).getD 0
  let (p, result) := p.addValue { name, definedBy := some (block, position) }
  let blocks := p.blocks.modify block fun b ↦
    { b with instructions := b.instructions.push { opcode, operands, result } }
  ({ p with blocks }, result)

/-- Enters an edge at both ends. An edge that is already there is left alone. -/
def link (p : Procedure) (source target : BlockId) : Procedure :=
  if target ∈ p.successors source then p
  else
    let leaving := p.blocks.modify source fun b ↦ { b with successors := b.successors ++ [target] }
    let blocks := leaving.modify target fun b ↦
      { b with predecessors := b.predecessors ++ [source] }
    { p with blocks }

/-- Appends an instruction to a block that has been allocated. -/
def addInstruction (p : Procedure) (block : BlockId) (opcode : Opcode) (operands : List ValueId)
    (name : Option String) : Except UnknownBlock (Procedure × ValueId) :=
  if p.blocks.size ≤ block then .error ⟨block⟩
  else .ok (p.append block opcode operands name)

/-- Enters an edge between blocks that have been allocated. -/
def addEdge (p : Procedure) (source target : BlockId) : Except UnknownBlock Procedure :=
  if p.blocks.size ≤ source then .error ⟨source⟩
  else if target ∉ p.successors source ∧ p.blocks.size ≤ target then .error ⟨target⟩
  else .ok (p.link source target)

/-- Carries out one call. The id that it allocates is answered; an edge allocates none. -/
def build (p : Procedure) : BuildStep → Except UnknownBlock (Procedure × Option Nat)
  | .value name =>
    let (p, id) := p.addValue { name := some name, definedBy := none }
    .ok (p, some id)
  | .anonymousValue =>
    let (p, id) := p.addValue { name := none, definedBy := none }
    .ok (p, some id)
  | .block name =>
    let (p, id) := p.addBlock name
    .ok (p, some id)
  | .instruction block opcode operands name =>
    (p.addInstruction block opcode operands name).map fun (p, id) ↦ (p, some id)
  | .edge source target => (p.addEdge source target).map fun p ↦ (p, none)

/-- Carries out calls in order, up to the first that names an unknown block. -/
def buildAll (p : Procedure) : List BuildStep → Except UnknownBlock Procedure
  | [] => .ok p
  | step :: steps => do
    let (p, _) ← p.build step
    p.buildAll steps

end Procedure

end BlockFlow
