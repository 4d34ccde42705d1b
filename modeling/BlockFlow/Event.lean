/-!
# Log events

The analyses do not write a log; what they would write is a value, computed beside their results.
-/

namespace BlockFlow

/-- How much an event matters. -/
inductive Level where
  | debug
  | info
  | warn
  deriving DecidableEq, Repr

/-- One line of a log. -/
structure Event where
  level : Level
  message : String
  deriving DecidableEq, Repr

namespace Event

/-- A detail of a run. -/
def debug (message : String) : Event := ⟨.debug, message⟩

/-- The outcome of a run. -/
def info (message : String) : Event := ⟨.info, message⟩

/-- Something that a run passed over. -/
def warn (message : String) : Event := ⟨.warn, message⟩

end Event

end BlockFlow
