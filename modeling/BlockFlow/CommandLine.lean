import BlockFlow.CommandLine.Arguments
import BlockFlow.File
import BlockFlow.Session

/-!
# The command line

From arguments and files to what is printed, in formats that are given. The configuration file is
read before the module, and both before the analyses; the first thing that fails is what is
reported.
-/

namespace BlockFlow.CommandLine

/-- Why a run that was asked for printed nothing. -/
inductive Failure where
  | config (error : ConfigError)
  | analysis (error : AnalysisError)
  deriving DecidableEq, Repr

/-- How a run ends. -/
inductive Outcome where
  | success (output : String)
  | failure (failure : Failure)
  | usage (error : UsageError)
  | help
  deriving DecidableEq, Repr

/-- The exit code of an outcome. -/
def Outcome.exitCode : Outcome → UInt32
  | success _ | help => 0
  | failure _ => 1
  | usage _ => 2

/-- What an outcome prints to standard output. -/
def Outcome.output : Outcome → String
  | success output => output
  | _ => ""

section

variable (formats : Formats)

/-- The configuration that a request asks for: that of its file, if it names one, with its own
strategy, if it names one. -/
def Request.configuration (request : Request) (contents : String → Option ByteArray) :
    Except ConfigError Config := do
  let config ←
    match request.config with
    | some path => Config.ofFile formats (contents path)
    | none => .ok {}
  return match request.strategy with
    | some strategy => { config with liveness := { config.liveness with strategy } }
    | none => config

/-- The reports that a request asks for, under a configuration. -/
def Request.reports (request : Request) (contents : String → Option ByteArray) (config : Config) :
    Except AnalysisError (List Report) := do
  let described ← ModuleDesc.ofFile formats request.input (contents request.input)
  let procedures ← described.analyzable
  match Session.ofConfig config with
  | .ok session => session.runAll procedures request.analyses
  | .error error => .error (.config error)

/-- How reports are printed. -/
def Format.print : Format → List Report → String
  | text => Report.textAll
  | json => formats.jsonReports

/-- Carries out a request, given the content of every file that can be read. -/
def Request.run (request : Request) (contents : String → Option ByteArray) : Outcome :=
  match request.configuration formats contents with
  | .error error => .failure (.config error)
  | .ok config =>
    match request.reports formats contents config with
    | .error error => .failure (.analysis error)
    | .ok reports => .success (request.format.print formats reports)

/-- Carries out what arguments ask for, given the content of every file that can be read. -/
def run (args : List String) (contents : String → Option ByteArray) : Outcome :=
  match Request.ofArgs args with
  | .error (.usage error) => .usage error
  | .error .help => .help
  | .ok request => request.run formats contents

end

end BlockFlow.CommandLine
