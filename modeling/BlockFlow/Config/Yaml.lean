import BlockFlow.Config
import BlockFlow.Yaml.Fields

/-!
# Configuration files

A configuration file is a YAML mapping with a version and a section for each analysis. Sections and
settings that are left out have their defaults. A file that is written sets everything.
-/

namespace BlockFlow.Config

open Yaml (Node)

/-- The versions of configuration files that are understood. -/
def supportedVersions : List Nat := [1]

/-- What a configuration file says. -/
structure Document where
  version : Option Nat
  numbering : Option NumberingConfig
  liveness : Option Solver
  deriving DecidableEq, Repr

/-- The settings of value numbering that a YAML node writes. -/
def numberingOfYaml? (node : Node) : Option NumberingConfig := do
  let r ← node.record? ["canonicalize_commutative"]
  return {
    canonicalizeCommutative := ← r.withDefault "canonicalize_commutative" false Node.bool? }

/-- The settings of liveness that a YAML node writes. -/
def livenessOfYaml? (node : Node) : Option Solver := do
  let r ← node.record? ["strategy", "max_passes"]
  let unset : Solver := {}
  return {
    strategy := ← r.withDefault "strategy" unset.strategy fun node ↦
      node.text?.bind Strategy.ofName?
    maxPasses := ← r.withDefault "max_passes" unset.maxPasses (Node.nat? Text.maxWord64) }

/-- What a YAML node says as a configuration file. -/
def Document.ofYaml? (node : Node) : Option Document := do
  let r ← node.record? ["version", "value_numbering", "liveness"]
  return {
    version := ← r.optional "version" (Node.orNull? (Node.nat? Text.maxWord32))
    numbering := ← r.optional "value_numbering" (Node.orNull? numberingOfYaml?)
    liveness := ← r.optional "liveness" (Node.orNull? livenessOfYaml?) }

/-- The configuration that a file stands for. The version is looked at before the settings. -/
def Document.toConfig (d : Document) : Except ConfigError Config :=
  match d.version with
  | none => .error .missingVersion
  | some version =>
    if version ∈ supportedVersions then
      build { numbering := d.numbering.getD {}, liveness := d.liveness.getD {} }
    else .error (.unsupportedVersion version supportedVersions)

/-- What a YAML text says as a configuration file. -/
def Document.ofYamlText (text : String) : Except ConfigError Document :=
  match (Node.parse? text).bind Document.ofYaml? with
  | some d => .ok d
  | none => .error .malformed

/-- The configuration that a YAML text stands for. -/
def ofYamlText (text : String) : Except ConfigError Config := do
  (← Document.ofYamlText text).toConfig

/-- The text of a configuration file that sets everything. -/
def toYamlText (c : Config) : String :=
  "version: 1\n" ++
  "value_numbering:\n" ++
  s!"  canonicalize_commutative: {c.numbering.canonicalizeCommutative}\n" ++
  "liveness:\n" ++
  s!"  strategy: {c.liveness.strategy.name}\n" ++
  s!"  max_passes: {c.liveness.maxPasses}\n"

end BlockFlow.Config
