import BlockFlow.Procedure

/-!
# What instructions do to values

The analyses see an instruction through its effect: a load reads a variable, a store writes one, an
operator computes from two values. An instruction that is none of these, or that lacks an operand
its opcode needs, has no effect; operands beyond those needed are not read.
-/

namespace BlockFlow

/-- The effect of an instruction on values. -/
inductive Effect where
  | load (address : ValueId)
  | store (value address : ValueId)
  | compute (op : Opcode) (lhs rhs : ValueId)
  | none
  deriving DecidableEq, Repr

/-- The effect of an instruction. -/
def Instruction.effect (inst : Instruction) : Effect :=
  match inst.opcode with
  | .load =>
    match inst.operands with
    | address :: _ => .load address
    | [] => .none
  | .store =>
    match inst.operands with
    | value :: address :: _ => .store value address
    | _ => .none
  | .other _ => .none
  | op =>
    match inst.operands with
    | lhs :: rhs :: _ => .compute op lhs rhs
    | _ => .none

/-- An instruction in the block it stands in. -/
structure Site where
  block : BasicBlock
  instruction : Instruction
  deriving DecidableEq, Repr

/-- The instructions of a block, in order. -/
def BasicBlock.sites (b : BasicBlock) : List Site := b.instructions.toList.map (⟨b, ·⟩)

/-- The instructions of all blocks, in block order. -/
def Procedure.sites (p : Procedure) : List Site := p.blocks.toList.flatMap BasicBlock.sites

end BlockFlow
