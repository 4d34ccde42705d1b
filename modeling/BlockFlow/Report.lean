import BlockFlow.Json.Fields
import BlockFlow.Json.Printer
import BlockFlow.Liveness.Report
import BlockFlow.Numbering.Report

/-!
# Reports

The report of either analysis, as a text and in JSON.
-/

namespace BlockFlow

open Json (ofText ofNat)

/-- The analyses. -/
inductive Analysis where
  | valueNumbering
  | liveness
  deriving DecidableEq, Repr

namespace Analysis

/-- The name of an analysis. -/
def name : Analysis → String
  | valueNumbering => "value_numbering"
  | liveness => "liveness"

/-- Every analysis, in the order of reports. -/
def all : List Analysis := [valueNumbering, liveness]

end Analysis

namespace Numbering

/-- The JSON form of a source. -/
def Source.toJson : Source → Json
  | copy number => Json.ofMembers [("copy", ofNat number)]
  | expression key => Json.ofMembers [("expression", ofText key)]

/-- The JSON form of a record. -/
def Record.toJson (r : Record) : Json :=
  Json.ofMembers [
    ("block", ofNat r.block),
    ("result", ofNat r.result),
    ("instruction", ofText r.instruction),
    ("destination", ofNat r.destination),
    ("source", r.source.toJson),
    ("redundant", .bool r.redundant)]

/-- The members of the JSON form of a report. -/
def Report.members (r : Report) : List (String × Json) := [
  ("function", ofText r.procedure),
  ("records", Json.ofList Record.toJson r.records)]

end Numbering

namespace Liveness

/-- A set is written as the ascending list of its members. -/
def setToJson (set : FactSet ValueId) : Json := Json.ofList ofNat set.toList

/-- The JSON form of the liveness of a block. -/
def BlockReport.toJson (b : BlockReport) : Json :=
  Json.ofMembers [
    ("block", ofNat b.block),
    ("name", ofText b.name),
    ("ue_var", setToJson b.ueVar),
    ("var_kill", setToJson b.varKill),
    ("live_out", setToJson b.liveOut)]

/-- The members of the JSON form of a report. -/
def Report.members (r : Report) : List (String × Json) := [
  ("function", ofText r.procedure),
  ("blocks", Json.ofList BlockReport.toJson r.blocks),
  ("iterations", ofNat r.iterations),
  ("value_names", Json.ofList ofText r.valueNames)]

end Liveness

/-- A report of either analysis. -/
inductive Report where
  | valueNumbering (report : Numbering.Report)
  | liveness (report : Liveness.Report)
  deriving DecidableEq

namespace Report

/-- The analysis that made a report. -/
def analysis : Report → Analysis
  | valueNumbering _ => .valueNumbering
  | liveness _ => .liveness

/-- The name of the procedure that a report is about. -/
def procedure : Report → String
  | valueNumbering r => r.procedure
  | liveness r => r.procedure

/-- The text of a report. -/
def text : Report → String
  | valueNumbering r => r.text
  | liveness r => r.text

/-- The members of a report without the name of its analysis. -/
def members : Report → List (String × Json)
  | valueNumbering r => r.members
  | liveness r => r.members

/-- The JSON form of a report; the name of its analysis comes first. -/
def toJson (r : Report) : Json :=
  Json.ofMembers (("analysis", ofText r.analysis.name) :: r.members)

/-- The texts of reports with an empty line between two of them. -/
def textAll (reports : List Report) : String := "\n".intercalate (reports.map text)

/-- The JSON text of reports. -/
def jsonAll (reports : List Report) : String := (Json.ofList toJson reports).pretty ++ "\n"

end Report

end BlockFlow
