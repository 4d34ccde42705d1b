import BlockFlow.Event
import BlockFlow.Numbering.Report
import BlockFlow.Numbering.Table
import BlockFlow.Procedure.Effect

/-!
# Value numbering

The instructions of a procedure are scanned once, in block order, with one table for all blocks. A
load gives its result the number of the variable it reads, a store gives the variable it writes
the number of the stored value, and an operator is numbered by its expression text: a text that
already has a number marks a redundant computation.
-/

namespace BlockFlow.Numbering

/-- The number that an instruction passes on. -/
structure Assignment where
  destination : Number
  source : Source
  redundant : Bool
  deriving DecidableEq, Repr

/-- Numbers one effect, whose instruction has the given result. The left operand is numbered before
the right one; where `ordered` is set, operands of commutative operators are put in order. -/
def Table.assign (ordered : Bool) (t : Table) (result : ValueId) :
    Effect → Table × Option Assignment
  | .load address =>
    let (t, loaded) := t.numberValue address
    let (t, _) := t.aliasValue result loaded.number
    (t, some { destination := loaded.number, source := .copy loaded.number, redundant := false })
  | .store value address =>
    let (t, stored) := t.numberValue value
    let (t, _) := t.aliasValue address stored.number
    (t, some { destination := stored.number, source := .copy stored.number, redundant := false })
  | .compute op lhs rhs =>
    let (t, left) := t.numberValue lhs
    let (t, right) := t.numberValue rhs
    let key := (Expression.ofOperation op left.number right.number ordered).key
    let (t, computed) := t.numberExpression key
    let (t, _) := t.aliasValue result computed.number
    (t, some {
      destination := computed.number, source := .expression key, redundant := computed.existed })
  | .none => (t, none)

/-- One step of a scan. -/
structure Step where
  site : Site
  assignment : Option Assignment
  deriving DecidableEq, Repr

/-- Numbers instructions in order. -/
def scan (ordered : Bool) (t : Table) : List Site → Table × List Step
  | [] => (t, [])
  | site :: sites =>
    let (t, assignment) := t.assign ordered site.instruction.result site.instruction.effect
    let (t, steps) := scan ordered t sites
    (t, { site, assignment } :: steps)

/-- The record of a step that numbered something. -/
def Step.record? (p : Procedure) (step : Step) : Option Record :=
  step.assignment.map fun a ↦ {
    block := step.site.block.id
    result := step.site.instruction.result
    instruction := p.instructionText step.site.instruction
    destination := a.destination
    source := a.source
    redundant := a.redundant }

/-- The events of a step: an instruction that lacks operands is passed over with a warning, and a
redundant expression is pointed out. -/
def Step.events (p : Procedure) (step : Step) : List Event :=
  match step.assignment with
  | some a =>
    if a.redundant then
      [.debug s!"{p.name}: redundant expression '{a.source.text}' in block {step.site.block.name}"]
    else []
  | none =>
    match step.site.instruction.opcode with
    | .other _ => []
    | .load => [.warn s!"{p.name}: load without operand skipped"]
    | op => [.warn s!"{p.name}: {op.mnemonic} without two operands skipped"]

/-- Numbers a procedure on top of what a table already holds. -/
def numberInto (ordered : Bool) (p : Procedure) (t : Table) : Table × Report :=
  let (t, steps) := scan ordered t p.sites
  (t, { procedure := p.name, records := steps.filterMap (Step.record? p) })

/-- The log of numbering a procedure on top of what a table already holds. -/
def eventsInto (ordered : Bool) (p : Procedure) (t : Table) : List Event :=
  let report := (numberInto ordered p t).2
  (scan ordered t p.sites).2.flatMap (Step.events p) ++
    [.info (s!"Value numbering for {p.name}: {report.records.length} records, " ++
      s!"{report.redundant.length} redundant")]

/-- Numbers a procedure from an empty table. -/
def number (ordered : Bool) (p : Procedure) : Report := (numberInto ordered p .empty).2

/-- The log of numbering a procedure from an empty table. -/
def events (ordered : Bool) (p : Procedure) : List Event := eventsInto ordered p .empty

end BlockFlow.Numbering
