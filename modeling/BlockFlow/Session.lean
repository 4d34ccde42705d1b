import BlockFlow.Error
import BlockFlow.Liveness
import BlockFlow.Numbering
import BlockFlow.Report

/-!
# Sessions

A session holds a valid configuration and runs analyses under it. Runs do not influence each other.
-/

namespace BlockFlow

/-- A valid configuration. -/
structure Session where
  config : Config
  valid : config.validate = .ok ()

namespace Session

/-- The session of the default configuration. -/
def default : Session where
  config := {}
  valid := rfl

/-- The session of a configuration, if it is valid. -/
def ofConfig (config : Config) : Except ConfigError Session :=
  match h : config.validate with
  | .ok () => .ok ⟨config, h⟩
  | .error error => .error error

/-- Runs one analysis over one procedure. -/
def run (s : Session) (p : Procedure) : Analysis → Except AnalysisError Report
  | .valueNumbering =>
    .ok (.valueNumbering (Numbering.number s.config.numbering.canonicalizeCommutative p))
  | .liveness =>
    match Liveness.analyze s.config.liveness p with
    | .ok report => .ok (.liveness report)
    | .error error => .error (.dataflow error)

/-- Every analysis to be run over every procedure, all analyses of one procedure before the next. -/
def jobs (procedures : List Procedure) (analyses : List Analysis) : List (Procedure × Analysis) :=
  procedures.flatMap fun p ↦ analyses.map (p, ·)

/-- Runs every analysis over every procedure, up to the first error. -/
def runAll (s : Session) (procedures : List Procedure) (analyses : List Analysis) :
    Except AnalysisError (List Report) :=
  (jobs procedures analyses).mapM fun (p, analysis) ↦ s.run p analysis

/-- What opening a session writes to the log. -/
def openEvents (s : Session) : List Event := [.debug s!"Analysis session: {s.config.describe}"]

/-- What an analysis over a procedure writes to the log. -/
def runEvents (s : Session) (p : Procedure) (analysis : Analysis) : List Event :=
  let inner :=
    match analysis with
    | .valueNumbering => Numbering.events s.config.numbering.canonicalizeCommutative p
    | .liveness => Liveness.events s.config.liveness p
  match s.run p analysis with
  | .ok _ => inner ++ [.debug s!"{analysis.name} on {p.name}"]
  | .error _ => inner

/-- What jobs write to the log, up to and including the first that fails. -/
def jobEvents (s : Session) : List (Procedure × Analysis) → List Event
  | [] => []
  | (p, analysis) :: jobs =>
    s.runEvents p analysis ++
      match s.run p analysis with
      | .ok _ => s.jobEvents jobs
      | .error _ => []

/-- What running every analysis over every procedure writes to the log. -/
def runAllEvents (s : Session) (procedures : List Procedure) (analyses : List Analysis) :
    List Event :=
  s.jobEvents (jobs procedures analyses) ++
    match s.runAll procedures analyses with
    | .ok reports =>
      [.info s!"Analyzed {procedures.length} functions ({reports.length} reports)"]
    | .error _ => []

end Session

end BlockFlow
