import BlockFlow.Json.Fields
import BlockFlow.Json.Printer
import BlockFlow.Json.Reader
import BlockFlow.Procedure

/-!
# Procedures in JSON

A procedure is written out in full, arena and edge lists included, and read back without any check
of what its ids mean. Members that a record does not declare are passed over.
-/

namespace BlockFlow

open Json (ofText)

/-- A block id or a value id. -/
def idOfJson? : Json → Option Nat := Json.nat? Text.maxWord32

namespace Opcode

/-- An opcode is a name; an uninterpreted one carries its mnemonic. -/
def toJson : Opcode → Json
  | load => ofText "load"
  | store => ofText "store"
  | add => ofText "add"
  | sub => ofText "sub"
  | mul => ofText "mul"
  | unsignedDiv => ofText "unsigned_div"
  | signedDiv => ofText "signed_div"
  | other name => Json.ofMembers [("other", ofText name)]

/-- The opcode of a name that carries nothing. -/
def ofTag? (tag : String) : Option Opcode :=
  if tag = "load" then some load
  else if tag = "store" then some store
  else if tag = "add" then some add
  else if tag = "sub" then some sub
  else if tag = "mul" then some mul
  else if tag = "unsigned_div" then some unsignedDiv
  else if tag = "signed_div" then some signedDiv
  else none

/-- The opcode that a JSON value writes. -/
def ofJson? (json : Json) : Option Opcode := do
  let (tag, payload) ← json.choice?
  if tag = "other" then return other (← payload.bind Json.text?)
  else
    guard (Json.carriesNothing payload)
    ofTag? tag

end Opcode

namespace Value

/-- The block and the position that define a value. -/
def siteToJson : Option (BlockId × Nat) → Json
  | none => .null
  | some (block, position) => .array [.ofNat block, .ofNat position]

/-- A list of exactly a block and a position, or `null`. -/
def siteOfJson? : Json → Option (Option (BlockId × Nat)) :=
  Json.orNull? fun json ↦
    match json with
    | .array [block, position] => do return (← idOfJson? block, ← position.nat? Text.maxWord64)
    | _ => none

/-- The JSON form of an arena entry. -/
def toJson (v : Value) : Json :=
  Json.ofMembers [
    ("name", v.name.elim .null ofText),
    ("defined_by", siteToJson v.definedBy)]

/-- The arena entry that a JSON value writes. -/
def ofJson? (json : Json) : Option Value := do
  let r ← json.record? ["name", "defined_by"] .opened
  return {
    name := ← r.optional "name" (Json.orNull? Json.text?)
    definedBy := ← r.optional "defined_by" siteOfJson? }

end Value

namespace Instruction

/-- The JSON form of an instruction. -/
def toJson (inst : Instruction) : Json :=
  Json.ofMembers [
    ("opcode", inst.opcode.toJson),
    ("operands", Json.ofList Json.ofNat inst.operands),
    ("result", .ofNat inst.result)]

/-- The instruction that a JSON value writes. -/
def ofJson? (json : Json) : Option Instruction := do
  let r ← json.record? ["opcode", "operands", "result"] .opened
  return {
    opcode := ← r.required "opcode" Opcode.ofJson?
    operands := ← r.required "operands" (Json.list? idOfJson?)
    result := ← r.required "result" idOfJson? }

end Instruction

namespace BasicBlock

/-- The JSON form of a block. -/
def toJson (b : BasicBlock) : Json :=
  Json.ofMembers [
    ("id", .ofNat b.id),
    ("name", ofText b.name),
    ("instructions", Json.ofList Instruction.toJson b.instructions.toList),
    ("successors", Json.ofList Json.ofNat b.successors),
    ("predecessors", Json.ofList Json.ofNat b.predecessors)]

/-- The block that a JSON value writes. -/
def ofJson? (json : Json) : Option BasicBlock := do
  let r ← json.record? ["id", "name", "instructions", "successors", "predecessors"] .opened
  return {
    id := ← r.required "id" idOfJson?
    name := ← r.required "name" Json.text?
    instructions := (← r.required "instructions" (Json.list? Instruction.ofJson?)).toArray
    successors := ← r.required "successors" (Json.list? idOfJson?)
    predecessors := ← r.required "predecessors" (Json.list? idOfJson?) }

end BasicBlock

namespace Procedure

/-- The JSON form of a procedure. -/
def toJson (p : Procedure) : Json :=
  Json.ofMembers [
    ("name", ofText p.name),
    ("values", Json.ofList Value.toJson p.values.toList),
    ("blocks", Json.ofList BasicBlock.toJson p.blocks.toList)]

/-- The procedure that a JSON value writes. -/
def ofJson? (json : Json) : Option Procedure := do
  let r ← json.record? ["name", "values", "blocks"] .opened
  return {
    name := ← r.required "name" Json.text?
    values := (← r.required "values" (Json.list? Value.ofJson?)).toArray
    blocks := (← r.required "blocks" (Json.list? BasicBlock.ofJson?)).toArray }

/-- The JSON text of a procedure. -/
def toJsonText (p : Procedure) : String := p.toJson.render

/-- The procedure that a JSON text writes. -/
def ofJsonText? (text : String) : Option Procedure := (Json.parse? text).bind ofJson?

end Procedure

end BlockFlow
