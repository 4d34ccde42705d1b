import BlockFlow.Opcode

/-!
# Procedures

A procedure is a control-flow graph of basic blocks over an arena of values. A value is its position
in the arena: two values of the same name are different values. A block is found by its position
in the block list; the id it carries is what its neighbours and reports call it, and a procedure
read from a file may carry any id. Positions are natural numbers of any size. Ids that are words of
thirty-two bits do for a procedure that is `Procedure.WithinWords`, and no other limit is set to the
statements about procedures.
-/

namespace BlockFlow

/-- A value: its position in the arena of its procedure. -/
abbrev ValueId := Nat

/-- A block: its position in the block list of its procedure. -/
abbrev BlockId := Nat

/-- The text of a block id. -/
def BlockId.label (id : BlockId) : String := s!"bb{id}"

/-- An entry of the value arena. -/
structure Value where
  name : Option String
  /-- The block and the position in it of the instruction whose result the value is. -/
  definedBy : Option (BlockId × Nat)
  deriving DecidableEq, Repr, Inhabited

/-- An instruction. Every instruction has a result, whether its text shows it or not. -/
structure Instruction where
  opcode : Opcode
  operands : List ValueId
  result : ValueId
  deriving DecidableEq, Repr, Inhabited

/-- A straight run of instructions with the blocks that may follow and precede it. -/
structure BasicBlock where
  id : BlockId
  name : String
  instructions : Array Instruction
  successors : List BlockId
  predecessors : List BlockId
  deriving DecidableEq, Repr, Inhabited

/-- A control-flow graph of basic blocks and the arena of the values they use. -/
structure Procedure where
  name : String
  values : Array Value
  blocks : Array BasicBlock
  deriving DecidableEq, Repr, Inhabited

namespace Procedure

/-- The arena entry of a value. -/
def value? (p : Procedure) (id : ValueId) : Option Value := p.values[id]?

/-- The block at a position. -/
def block? (p : Procedure) (id : BlockId) : Option BasicBlock := p.blocks[id]?

/-- The ids that the blocks carry, in block order. -/
def blockIds (p : Procedure) : List BlockId := p.blocks.toList.map BasicBlock.id

/-- The blocks that may follow the block at a position; none for an unknown one. -/
def successors (p : Procedure) (id : BlockId) : List BlockId :=
  ((p.block? id).map BasicBlock.successors).getD []

/-- The blocks that may precede the block at a position; none for an unknown one. -/
def predecessors (p : Procedure) (id : BlockId) : List BlockId :=
  ((p.block? id).map BasicBlock.predecessors).getD []

/-- The first value of a name, in arena order. -/
def valueNamed? (p : Procedure) (name : String) : Option ValueId :=
  p.values.findIdx? (·.name == some name)

/-- How texts call a value: by its name, or by its number if it has none. -/
def valueName (p : Procedure) (id : ValueId) : String :=
  ((p.value? id).bind Value.name).getD (toString id)

/-- Whether a value is in the arena and has a name. -/
def isNamed (p : Procedure) (id : ValueId) : Bool :=
  ((p.value? id).bind Value.name).isSome

/-- The number of instructions of all blocks. -/
def instructionCount (p : Procedure) : Nat :=
  (p.blocks.toList.flatMap (·.instructions.toList)).length

/-- The text of an instruction: `%y = add %x, %x`. -/
def instructionText (p : Procedure) (inst : Instruction) : String :=
  let shown := if inst.opcode.showsResult (p.isNamed inst.result)
    then s!"%{p.valueName inst.result} = " else ""
  let operands := ", ".intercalate (inst.operands.map fun v ↦ s!"%{p.valueName v}")
  shown ++ inst.opcode.mnemonic ++ (if inst.operands.isEmpty then "" else " " ++ operands)

/-- The instruction at a position of the block at a position. -/
def instruction? (p : Procedure) (block : BlockId) (position : Nat) : Option Instruction :=
  (p.block? block).bind (·.instructions[position]?)

/-- The texts of the instructions, block by block. -/
def listing (p : Procedure) : List (List String) :=
  p.blocks.toList.map fun b ↦ b.instructions.toList.map p.instructionText

end Procedure

end BlockFlow
