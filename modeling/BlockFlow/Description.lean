import Std.Data.ExtTreeMap.Lemmas
import BlockFlow.Procedure.Builder

/-!
# Described procedures

A module can be written down in a file, with blocks and values called by name. A description is well
formed if the blocks of a procedure have different names, every successor is one of them, and every
instruction has the operands that its opcode needs; from such a description a procedure is
assembled. The name of an operand stands for the latest earlier result of that name, in
block order, and otherwise for a value of the procedure that all such mentions share.
-/

namespace BlockFlow

/-- An instruction as it is described. -/
structure InstructionDesc where
  name : Option String := none
  opcode : String
  operands : List String := []
  deriving DecidableEq, Repr

/-- A block as it is described. -/
structure BlockDesc where
  name : String
  successors : List String := []
  instructions : List InstructionDesc := []
  deriving DecidableEq, Repr

/-- A procedure as it is described. -/
structure ProcedureDesc where
  name : String
  blocks : List BlockDesc
  deriving DecidableEq, Repr

/-- A module as it is described. -/
structure ModuleDesc where
  procedures : List ProcedureDesc := []
  deriving DecidableEq, Repr

/-- What can be wrong with a description. -/
inductive DescriptionFault where
  | duplicateBlock (procedure block : String)
  | unknownSuccessor (procedure block successor : String)
  | tooFewOperands (procedure block mnemonic : String) (required found : Nat)
  deriving DecidableEq, Repr

/-- The text of a fault. -/
def DescriptionFault.message : DescriptionFault → String
  | duplicateBlock procedure block => s!"function '{procedure}': duplicate block '{block}'"
  | unknownSuccessor procedure block successor =>
    s!"function '{procedure}': block '{block}' has unknown successor '{successor}'"
  | tooFewOperands procedure block mnemonic required found =>
    s!"function '{procedure}', block '{block}': '{mnemonic}' needs {required} operand(s), " ++
      s!"found {found}"

/-- The first entry of a list that is also among the entries before it or in `seen`. -/
def firstRepeated? (seen : List String) : List String → Option String
  | [] => none
  | name :: names => if name ∈ seen then some name else firstRepeated? (name :: seen) names

namespace ProcedureDesc

/-- The names of the blocks, in order. -/
def blockNames (d : ProcedureDesc) : List String := d.blocks.map BlockDesc.name

/-- The first block whose name an earlier block has. -/
def repeatedBlock? (d : ProcedureDesc) : Option DescriptionFault :=
  (firstRepeated? [] d.blockNames).map (.duplicateBlock d.name)

/-- The first successor that names no block. -/
def danglingEdge? (d : ProcedureDesc) : Option DescriptionFault :=
  d.blocks.findSome? fun b ↦ b.successors.findSome? fun successor ↦
    if successor ∈ d.blockNames then none else some (.unknownSuccessor d.name b.name successor)

/-- The first instruction that lacks an operand. -/
def shortInstruction? (d : ProcedureDesc) : Option DescriptionFault :=
  d.blocks.findSome? fun b ↦ b.instructions.findSome? fun inst ↦
    let op := Opcode.ofMnemonic inst.opcode
    if inst.operands.length < op.arity then
      some (.tooFewOperands d.name b.name op.mnemonic op.arity inst.operands.length)
    else none

/-- The first fault: repeated blocks are reported before dangling edges, and these before short
instructions. -/
def fault? (d : ProcedureDesc) : Option DescriptionFault :=
  d.repeatedBlock?.or (d.danglingEdge?.or d.shortInstruction?)

end ProcedureDesc

/-- A procedure under assembly, and what the names of its values stand for so far. -/
structure Assembly where
  procedure : Procedure
  scope : Std.ExtTreeMap String ValueId compare := ∅

namespace Assembly

/-- The value that an operand stands for. A name that stands for nothing yet becomes a new value. -/
def resolve (a : Assembly) (name : String) : Assembly × ValueId :=
  match a.scope[name]? with
  | some id => (a, id)
  | none =>
    let (procedure, id) := a.procedure.addValue { name := some name, definedBy := none }
    ({ procedure, scope := a.scope.insert name id }, id)

/-- The values that operands stand for, from left to right. -/
def resolveAll (a : Assembly) : List String → Assembly × List ValueId
  | [] => (a, [])
  | name :: names =>
    let (a, id) := a.resolve name
    let (a, ids) := a.resolveAll names
    (a, id :: ids)

/-- Appends a described instruction to a block. From then on its name stands for its result. -/
def place (block : BlockId) (a : Assembly) (inst : InstructionDesc) : Assembly :=
  let (a, operands) := a.resolveAll inst.operands
  let (procedure, result) :=
    a.procedure.append block (Opcode.ofMnemonic inst.opcode) operands inst.name
  match inst.name with
  | some name => { procedure, scope := a.scope.insert name result }
  | none => { a with procedure }

end Assembly

namespace ProcedureDesc

/-- The procedure with the described blocks and nothing in them. -/
def allocate (d : ProcedureDesc) : Procedure :=
  d.blocks.foldl (fun p b ↦ (p.addBlock b.name).1) (Procedure.empty d.name)

/-- The position of the block of a name. -/
def position (d : ProcedureDesc) (name : String) : BlockId := d.blockNames.idxOf name

/-- Enters the described edges. -/
def linkAll (d : ProcedureDesc) (p : Procedure) : Procedure :=
  d.blocks.zipIdx.foldl (fun p (b, source) ↦
    b.successors.foldl (fun p successor ↦ p.link source (d.position successor)) p) p

/-- Appends the described instructions. -/
def placeAll (d : ProcedureDesc) (a : Assembly) : Assembly :=
  d.blocks.zipIdx.foldl (fun a (b, block) ↦ b.instructions.foldl (Assembly.place block) a) a

/-- The procedure of a well-formed description: its blocks, then its edges, then its instructions.
-/
def assemble (d : ProcedureDesc) : Procedure :=
  (d.placeAll { procedure := d.linkAll d.allocate }).procedure

/-- The described procedure, or the first fault of the description. -/
def toProcedure (d : ProcedureDesc) : Except DescriptionFault Procedure :=
  match d.fault? with
  | some fault => .error fault
  | none => .ok d.assemble

end ProcedureDesc

/-- The described procedures, or the first fault of the first faulty description. -/
def ModuleDesc.toProcedures (m : ModuleDesc) : Except DescriptionFault (List Procedure) :=
  m.procedures.mapM ProcedureDesc.toProcedure

end BlockFlow
