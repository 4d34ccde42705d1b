import BlockFlow.CommandLine
import BlockFlow.CommandLine.Arguments
import BlockFlow.Config
import BlockFlow.Config.Yaml
import BlockFlow.Description
import BlockFlow.Description.Json
import BlockFlow.Description.Yaml
import BlockFlow.Error
import BlockFlow.Event
import BlockFlow.FactSet
import BlockFlow.Fields
import BlockFlow.File
import BlockFlow.FlowGraph
import BlockFlow.Json
import BlockFlow.Json.Fields
import BlockFlow.Json.Literal
import BlockFlow.Json.Printer
import BlockFlow.Json.Reader
import BlockFlow.Liveness
import BlockFlow.Liveness.Report
import BlockFlow.Liveness.Summary
import BlockFlow.Main
import BlockFlow.Numbering
import BlockFlow.Numbering.Expression
import BlockFlow.Numbering.Report
import BlockFlow.Numbering.Table
import BlockFlow.Opcode
import BlockFlow.Procedure
import BlockFlow.Procedure.Builder
import BlockFlow.Procedure.Effect
import BlockFlow.Procedure.Json
import BlockFlow.Proofs.CommandLine.Strategy
import BlockFlow.Proofs.Config.Yaml
import BlockFlow.Proofs.Description.Assembly
import BlockFlow.Proofs.Description.Faults
import BlockFlow.Proofs.Description.Graph
import BlockFlow.Proofs.Description.Names
import BlockFlow.Proofs.Description.Order
import BlockFlow.Proofs.Fallible
import BlockFlow.Proofs.Json.Documents
import BlockFlow.Proofs.Json.Fields
import BlockFlow.Proofs.Json.Literal
import BlockFlow.Proofs.Json.RoundTrip
import BlockFlow.Proofs.Liveness.Backward
import BlockFlow.Proofs.Liveness.MissingBlocks
import BlockFlow.Proofs.Liveness.Outcome
import BlockFlow.Proofs.Liveness.Paths
import BlockFlow.Proofs.Liveness.Recoded
import BlockFlow.Proofs.Liveness.Summary
import BlockFlow.Proofs.Numbering.Again
import BlockFlow.Proofs.Numbering.Classes
import BlockFlow.Proofs.Numbering.Execution
import BlockFlow.Proofs.Numbering.Expression
import BlockFlow.Proofs.Numbering.Ledger
import BlockFlow.Proofs.Numbering.Ordering
import BlockFlow.Proofs.Numbering.Repeats
import BlockFlow.Proofs.Numbering.Scan
import BlockFlow.Proofs.Numbering.Substitution
import BlockFlow.Proofs.Numbering.Symbolic
import BlockFlow.Proofs.Numbering.Term
import BlockFlow.Proofs.Numbering.Valuation
import BlockFlow.Proofs.Numbering.Words
import BlockFlow.Proofs.Procedure.Builder
import BlockFlow.Proofs.Procedure.Code
import BlockFlow.Proofs.Procedure.Definitions
import BlockFlow.Proofs.Procedure.Inert
import BlockFlow.Proofs.Procedure.Renaming
import BlockFlow.Proofs.Procedure.Words
import BlockFlow.Proofs.Session.Events
import BlockFlow.Proofs.Session.Outcome
import BlockFlow.Proofs.Solver.Depth
import BlockFlow.Proofs.Solver.InPlace
import BlockFlow.Proofs.Solver.Indexed
import BlockFlow.Proofs.Solver.LeastSolution
import BlockFlow.Proofs.Solver.Renaming
import BlockFlow.Proofs.Solver.RoundRobin
import BlockFlow.Proofs.Solver.Schedule
import BlockFlow.Proofs.Solver.Simulation
import BlockFlow.Proofs.Solver.Sweep
import BlockFlow.Proofs.Solver.Threshold
import BlockFlow.Proofs.Solver.Unmirrored
import BlockFlow.Proofs.Solver.Worklist
import BlockFlow.Proofs.Yaml.Lines
import BlockFlow.Proofs.Yaml.Words
import BlockFlow.Report
import BlockFlow.Session
import BlockFlow.Solver
import BlockFlow.Solver.Equations
import BlockFlow.Solver.Error
import BlockFlow.Solver.RoundRobin
import BlockFlow.Solver.Schedule
import BlockFlow.Solver.Sweep
import BlockFlow.Solver.Worklist
import BlockFlow.Text.Align
import BlockFlow.Text.Digits
import BlockFlow.Yaml.Cursor
import BlockFlow.Yaml.Fields
import BlockFlow.Yaml.Node
import BlockFlow.Yaml.Scalar
import BlockFlow.Yaml.Token
