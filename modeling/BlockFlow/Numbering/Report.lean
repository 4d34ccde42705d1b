import BlockFlow.Numbering.Expression
import BlockFlow.Procedure
import BlockFlow.Text.Align

/-!
# Reports of value numbering

One record for every load, store and operator that was numbered, in scan order.
-/

namespace BlockFlow.Numbering

/-- Where a number comes from. -/
inductive Source where
  /-- A load or a store passes on the number of the value it moves. -/
  | copy (number : Number)
  /-- An operator has the number of its expression text. -/
  | expression (key : String)
  deriving DecidableEq, Repr

/-- The text of a source. -/
def Source.text : Source → String
  | copy number => toString number
  | expression key => key

/-- What numbering one instruction found. -/
structure Record where
  /-- The id that the block of the instruction carries. -/
  block : BlockId
  /-- The result of the instruction. -/
  result : ValueId
  /-- The text of the instruction. -/
  instruction : String
  destination : Number
  source : Source
  /-- Whether the same expression was numbered before. -/
  redundant : Bool
  deriving DecidableEq, Repr

/-- The width of the column of instruction texts. -/
def instructionColumn : Nat := 40

/-- The line of a record. -/
def Record.text (r : Record) : String :=
  Text.pad .left instructionColumn r.instruction ++ s!"{r.destination} = " ++ r.source.text ++
    (if r.redundant then " (redundant)" else "")

/-- The records of a procedure. -/
structure Report where
  procedure : String
  records : List Record
  deriving DecidableEq, Repr

namespace Report

/-- The records of expressions numbered before. -/
def redundant (r : Report) : List Record := r.records.filter Record.redundant

/-- The first record of an instruction with the given result. -/
def recordFor? (r : Report) (result : ValueId) : Option Record :=
  r.records.find? (·.result == result)

/-- The text of a report: a heading, and a line for each record. -/
def text (r : Report) : String :=
  s!"ValueNumbering: {r.procedure}\n" ++
    String.join (r.records.map fun record ↦ record.text ++ "\n")

end Report

end BlockFlow.Numbering
