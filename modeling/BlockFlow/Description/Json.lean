import BlockFlow.Description
import BlockFlow.Json.Fields
import BlockFlow.Json.Printer
import BlockFlow.Json.Reader

/-!
# Descriptions in JSON

Lists may be left out where they are empty, and so may the name of an instruction. A member that a
description does not declare is a mistake.
-/

namespace BlockFlow

open Json (ofText)

namespace InstructionDesc

/-- The JSON form of a described instruction. An absent name is left out. -/
def toJson (d : InstructionDesc) : Json :=
  Json.ofMembers ((d.name.map fun name ↦ ("name", ofText name)).toList ++ [
    ("opcode", ofText d.opcode),
    ("operands", Json.ofList ofText d.operands)])

/-- The described instruction that a JSON value writes. -/
def ofJson? (json : Json) : Option InstructionDesc := do
  let r ← json.record? ["name", "opcode", "operands"] .closed
  return {
    name := ← r.optional "name" (Json.orNull? Json.text?)
    opcode := ← r.required "opcode" Json.text?
    operands := ← r.withDefault "operands" [] (Json.list? Json.text?) }

end InstructionDesc

namespace BlockDesc

/-- The JSON form of a described block. -/
def toJson (d : BlockDesc) : Json :=
  Json.ofMembers [
    ("name", ofText d.name),
    ("successors", Json.ofList ofText d.successors),
    ("instructions", Json.ofList InstructionDesc.toJson d.instructions)]

/-- The described block that a JSON value writes. -/
def ofJson? (json : Json) : Option BlockDesc := do
  let r ← json.record? ["name", "successors", "instructions"] .closed
  return {
    name := ← r.required "name" Json.text?
    successors := ← r.withDefault "successors" [] (Json.list? Json.text?)
    instructions := ← r.withDefault "instructions" [] (Json.list? InstructionDesc.ofJson?) }

end BlockDesc

namespace ProcedureDesc

/-- The JSON form of a described procedure. -/
def toJson (d : ProcedureDesc) : Json :=
  Json.ofMembers [
    ("name", ofText d.name),
    ("blocks", Json.ofList BlockDesc.toJson d.blocks)]

/-- The described procedure that a JSON value writes. -/
def ofJson? (json : Json) : Option ProcedureDesc := do
  let r ← json.record? ["name", "blocks"] .closed
  return {
    name := ← r.required "name" Json.text?
    blocks := ← r.required "blocks" (Json.list? BlockDesc.ofJson?) }

end ProcedureDesc

namespace ModuleDesc

/-- The JSON form of a described module. -/
def toJson (d : ModuleDesc) : Json :=
  Json.ofMembers [("functions", Json.ofList ProcedureDesc.toJson d.procedures)]

/-- The described module that a JSON value writes. -/
def ofJson? (json : Json) : Option ModuleDesc := do
  let r ← json.record? ["functions"] .closed
  return { procedures := ← r.withDefault "functions" [] (Json.list? ProcedureDesc.ofJson?) }

/-- The JSON text of a described module. -/
def toJsonText (d : ModuleDesc) : String := d.toJson.render

/-- The described module that a JSON text writes. -/
def ofJsonText? (text : String) : Option ModuleDesc := (Json.parse? text).bind ofJson?

end ModuleDesc

end BlockFlow
