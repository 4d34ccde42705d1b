import BlockFlow.Config
import BlockFlow.Description

/-!
# How an analysis can fail

Between a file and its reports lie the file, its text, what it describes, the configuration and the
dataflow problem; each can be at fault.
-/

namespace BlockFlow

/-- Why there is no report. -/
inductive AnalysisError where
  | dataflow (error : SolveError)
  | invalidInput (fault : DescriptionFault)
  | config (error : ConfigError)
  /-- The file cannot be read, or is not UTF-8. -/
  | unreadable
  /-- The text is not JSON, or not of the shape that is read. -/
  | malformedJson
  /-- The text is not YAML, or not of the shape that is read. -/
  | malformedYaml
  deriving DecidableEq, Repr

namespace AnalysisError

/-- The text of an error. -/
def message : AnalysisError → String
  | dataflow error => "Dataflow error: " ++ error.message
  | invalidInput fault => "Invalid input: " ++ fault.message
  | config error => "Configuration error: " ++ error.message
  | unreadable => "IO error"
  | malformedJson => "JSON error"
  | malformedYaml => "YAML error"

/-- Whether the error shows a fault of the program, not of its input. -/
def isInternal : AnalysisError → Bool
  | dataflow error => error.isInvariantViolation
  | _ => false

end AnalysisError

/-- The procedures of a module, with a fault of its description as an error of the analysis. -/
def ModuleDesc.analyzable (m : ModuleDesc) : Except AnalysisError (List Procedure) :=
  match m.toProcedures with
  | .ok procedures => .ok procedures
  | .error fault => .error (.invalidInput fault)

end BlockFlow
