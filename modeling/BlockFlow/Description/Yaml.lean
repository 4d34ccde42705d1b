import BlockFlow.Description
import BlockFlow.Yaml.Fields

/-!
# Descriptions in YAML

Lists may be left out where they are empty, and so may the name of an instruction. A member that a
description does not declare is a mistake. A text with nothing in it describes the empty module.
-/

namespace BlockFlow

open Yaml (Node)

/-- The described instruction that a YAML node writes. -/
def InstructionDesc.ofYaml? (node : Node) : Option InstructionDesc := do
  let r ← node.record? ["name", "opcode", "operands"]
  return {
    name := ← r.optional "name" (Node.orNull? Node.text?)
    opcode := ← r.required "opcode" Node.text?
    operands := ← r.withDefault "operands" [] (Node.list? Node.text?) }

/-- The described block that a YAML node writes. -/
def BlockDesc.ofYaml? (node : Node) : Option BlockDesc := do
  let r ← node.record? ["name", "successors", "instructions"]
  return {
    name := ← r.required "name" Node.text?
    successors := ← r.withDefault "successors" [] (Node.list? Node.text?)
    instructions := ← r.withDefault "instructions" [] (Node.list? InstructionDesc.ofYaml?) }

/-- The described procedure that a YAML node writes. -/
def ProcedureDesc.ofYaml? (node : Node) : Option ProcedureDesc := do
  let r ← node.record? ["name", "blocks"]
  return {
    name := ← r.required "name" Node.text?
    blocks := ← r.required "blocks" (Node.list? BlockDesc.ofYaml?) }

/-- The described module that a YAML node writes. -/
def ModuleDesc.ofYaml? (node : Node) : Option ModuleDesc := do
  let r ← node.record? ["functions"]
  return { procedures := ← r.withDefault "functions" [] (Node.list? ProcedureDesc.ofYaml?) }

/-- The described module that a YAML text writes. -/
def ModuleDesc.ofYamlText? (text : String) : Option ModuleDesc :=
  (Node.parse? text).bind ModuleDesc.ofYaml?

end BlockFlow
