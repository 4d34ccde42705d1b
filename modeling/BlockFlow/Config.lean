import BlockFlow.Json.Fields
import BlockFlow.Json.Reader
import BlockFlow.Solver

/-!
# Configuration

What can be set for the two analyses, in which range, and how a configuration describes itself.
-/

namespace BlockFlow

/-- What can be wrong with a configuration or the file that holds it. -/
inductive ConfigError where
  | range (field value min max hint : String)
  | missingVersion
  | unsupportedVersion (found : Nat) (supported : List Nat)
  /-- The file cannot be read, or is not UTF-8. -/
  | unreadable
  /-- The text is not a configuration in YAML. -/
  | malformed
  deriving DecidableEq, Repr

/-- The text of an error. -/
def ConfigError.message : ConfigError → String
  | range field value min max hint =>
    s!"Invalid range for field '{field}': {value} not in {min}..={max}. {hint}"
  | missingVersion =>
    "Missing 'version' field in configuration file. " ++
      "Add 'version: 1' to the top of your YAML file."
  | unsupportedVersion found supported =>
    s!"Unsupported configuration version {found}. Supported versions: " ++
      ", ".intercalate (supported.map toString)
  | unreadable => "IO error"
  | malformed => "YAML parsing error"

/-- The settings of value numbering. -/
structure NumberingConfig where
  /-- Whether the operands of commutative operators are put in order. -/
  canonicalizeCommutative : Bool := false
  deriving DecidableEq, Repr, Inhabited

/-- The settings of both analyses. -/
structure Config where
  numbering : NumberingConfig := {}
  liveness : Solver := {}
  deriving DecidableEq, Repr, Inhabited

namespace Config

/-- The largest pass cap. -/
def maxPassesLimit : Nat := 100000

/-- Whether the pass cap is in its range. -/
def validate (c : Config) : Except ConfigError Unit :=
  if 1 ≤ c.liveness.maxPasses ∧ c.liveness.maxPasses ≤ maxPassesLimit then .ok ()
  else .error (.range "liveness.max_passes" (toString c.liveness.maxPasses) "1"
    (toString maxPassesLimit)
    "The fixpoint needs at least one pass and the cap must stay finite")

/-- The configuration itself, if it is valid. -/
def build (c : Config) : Except ConfigError Config := do
  c.validate
  return c

/-- A line that says what is set. -/
def describe (c : Config) : String :=
  s!"value_numbering(canonicalize_commutative={c.numbering.canonicalizeCommutative}) " ++
    s!"liveness(strategy={c.liveness.strategy.name}, max_passes={c.liveness.maxPasses})"

/-- The JSON form of a configuration. -/
def toJson (c : Config) : Json :=
  Json.ofMembers [
    ("value_numbering", Json.ofMembers [
      ("canonicalize_commutative", .bool c.numbering.canonicalizeCommutative)]),
    ("liveness", Json.ofMembers [
      ("strategy", Json.ofText c.liveness.strategy.name),
      ("max_passes", Json.ofNat c.liveness.maxPasses)])]

/-- The strategy that a JSON value writes. -/
def strategyOfJson? (json : Json) : Option Strategy := do
  let (name, payload) ← json.choice?
  guard (Json.carriesNothing payload)
  Strategy.ofName? name

/-- The settings of value numbering that a JSON value writes. -/
def numberingOfJson? (json : Json) : Option NumberingConfig := do
  let r ← json.record? ["canonicalize_commutative"] .closed
  return {
    canonicalizeCommutative := ← r.withDefault "canonicalize_commutative" false Json.bool? }

/-- The settings of liveness that a JSON value writes. -/
def livenessOfJson? (json : Json) : Option Solver := do
  let r ← json.record? ["strategy", "max_passes"] .closed
  let unset : Solver := {}
  return {
    strategy := ← r.withDefault "strategy" unset.strategy strategyOfJson?
    maxPasses := ← r.withDefault "max_passes" unset.maxPasses (Json.nat? Text.maxWord64) }

/-- The configuration that a JSON value writes. Both sections have to be given; nothing is checked
against its range. -/
def ofJson? (json : Json) : Option Config := do
  let r ← json.record? ["value_numbering", "liveness"] .opened
  return {
    numbering := ← r.required "value_numbering" numberingOfJson?
    liveness := ← r.required "liveness" livenessOfJson? }

/-- The configuration that a JSON text writes. -/
def ofJsonText? (text : String) : Option Config := (Json.parse? text).bind ofJson?

end Config

end BlockFlow
