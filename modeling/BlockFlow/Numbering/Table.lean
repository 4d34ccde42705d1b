import Std.Data.ExtTreeMap.Lemmas
import BlockFlow.Numbering.Expression
import BlockFlow.Procedure

/-!
# Tables of value numbers

A table numbers values and expression texts from one counter, so that a number issued to a value is
never issued to an expression. A value may be renumbered by an alias; an expression keeps its
number. The counter is a natural number and is never exhausted. One that is a word of thirty-two
bits goes back to zero after the largest word; a table with such a counter, `WordTable`, does the
same until then.
-/

namespace BlockFlow.Numbering

/-- The answer to a request for a number. -/
structure Lookup where
  number : Number
  /-- Whether the key had a number before the request. -/
  existed : Bool
  deriving DecidableEq, Repr

/-- The numbers issued so far. -/
structure Table where
  /-- The number that the next new key receives. -/
  next : Number := 1
  values : Std.ExtTreeMap ValueId Number compare := ∅
  expressions : Std.ExtTreeMap String Number compare := ∅

namespace Table

/-- The table that has issued no number. -/
def empty : Table := {}

/-- The number of a value, a new one if it has none. -/
def numberValue (t : Table) (value : ValueId) : Table × Lookup :=
  match t.values[value]? with
  | some number => (t, { number, existed := true })
  | none =>
    ({ t with next := t.next + 1, values := t.values.insert value t.next },
      { number := t.next, existed := false })

/-- Gives a value a number, whatever it had before. The counter stays. -/
def aliasValue (t : Table) (value : ValueId) (number : Number) : Table × Lookup :=
  ({ t with values := t.values.insert value number },
    { number, existed := t.values.contains value })

/-- The number of an expression text, a new one if it has none. -/
def numberExpression (t : Table) (text : String) : Table × Lookup :=
  match t.expressions[text]? with
  | some number => (t, { number, existed := true })
  | none =>
    ({ t with next := t.next + 1, expressions := t.expressions.insert text t.next },
      { number := t.next, existed := false })

/-- The number of a value, if it has one. -/
def lookupValue (t : Table) (value : ValueId) : Option Number := t.values[value]?

/-- The number of an expression text, if it has one. -/
def lookupExpression (t : Table) (text : String) : Option Number := t.expressions[text]?

/-- The number of numbered values. -/
def valueCount (t : Table) : Nat := t.values.size

/-- The number of numbered expressions. -/
def expressionCount (t : Table) : Nat := t.expressions.size

/-- After an alias the value has the given number, and every other value what it had. -/
theorem lookupValue_aliasValue (t : Table) (value other : ValueId) (number : Number) :
    (t.aliasValue value number).1.lookupValue other =
      if value = other then some number else t.lookupValue other := by
  simp [aliasValue, lookupValue, Std.ExtTreeMap.getElem?_insert]

/-- A value that is asked for has the answered number, and every other value what it had. -/
theorem lookupValue_numberValue (t : Table) (value other : ValueId) :
    (t.numberValue value).1.lookupValue other =
      if value = other then some (t.numberValue value).2.number else t.lookupValue other := by
  unfold numberValue lookupValue
  split
  · rename_i number h
    split
    · subst value
      exact h
    · rfl
  · simp [Std.ExtTreeMap.getElem?_insert]

/-- An expression that is asked for has the answered number, and every other one what it had. -/
theorem lookupExpression_numberExpression (t : Table) (text other : String) :
    (t.numberExpression text).1.lookupExpression other =
      if text = other then some (t.numberExpression text).2.number
      else t.lookupExpression other := by
  unfold numberExpression lookupExpression
  split
  · rename_i number h
    split
    · subst text
      exact h
    · rfl
  · simp [Std.ExtTreeMap.getElem?_insert]

end Table

end BlockFlow.Numbering
