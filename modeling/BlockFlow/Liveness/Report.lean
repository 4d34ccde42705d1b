import BlockFlow.FactSet
import BlockFlow.Procedure

/-!
# Reports of liveness

For every block the variables it uses before storing to them (UEVAR), those it stores to (VARKILL)
and those that are live at its end (LIVEOUT).
-/

namespace BlockFlow.Liveness

/-- The liveness of one block. -/
structure BlockReport where
  block : BlockId
  name : String
  ueVar : FactSet ValueId
  varKill : FactSet ValueId
  liveOut : FactSet ValueId
  deriving DecidableEq

/-- The variables that are live at the start of a block. -/
def BlockReport.liveIn (b : BlockReport) : FactSet ValueId := b.ueVar ∪ (b.liveOut \ b.varKill)

/-- The liveness of a procedure. -/
structure Report where
  procedure : String
  blocks : List BlockReport
  /-- The number of sweeps that were needed, the confirming one included. -/
  iterations : Nat
  /-- The name of every value, in arena order. -/
  valueNames : List String
  deriving DecidableEq

namespace Report

/-- The first block that carries an id. -/
def block? (r : Report) (id : BlockId) : Option BlockReport := r.blocks.find? (·.block == id)

/-- The first block of a name. -/
def blockNamed? (r : Report) (name : String) : Option BlockReport :=
  r.blocks.find? (·.name == name)

/-- The names of the members of a set, in arena order. -/
def names (r : Report) (set : FactSet ValueId) : List String :=
  set.toList.map fun id ↦ r.valueNames[id]?.getD (toString id)

/-- The line of a labelled set. -/
def setLine (label : String) (names : List String) : String :=
  if names.isEmpty then s!"{label}:\n" else label ++ ": " ++ " ".intercalate names ++ "\n"

/-- The lines of one block. -/
def blockText (r : Report) (b : BlockReport) : String :=
  s!"------ {b.name} ------\n" ++
    setLine "UEVAR" (r.names b.ueVar) ++
    setLine "VARKILL" (r.names b.varKill) ++
    setLine "LIVEOUT" (r.names b.liveOut)

/-- The text of a report. -/
def text (r : Report) : String :=
  s!"Liveness analysis: {r.procedure}\n" ++ String.join (r.blocks.map r.blockText)

end Report

end BlockFlow.Liveness
