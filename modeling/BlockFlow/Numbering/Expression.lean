import BlockFlow.Opcode

/-!
# Expression keys

An operator applied to two numbered values is known by a text: the left number, the mnemonic and the
right number, with blanks between them.
-/

namespace BlockFlow.Numbering

/-- The number of a class of values known to be equal. -/
abbrev Number := Nat

/-- An operator applied to two numbers. -/
structure Expression where
  lhs : Number
  op : String
  rhs : Number
  deriving DecidableEq, Repr

/-- The expression `lhs op rhs`. Where `ordered` is set, the smaller number of a commutative
operator comes first. -/
def Expression.ofOperation (op : Opcode) (lhs rhs : Number) (ordered : Bool) : Expression :=
  if ordered && op.isCommutative && rhs < lhs then { lhs := rhs, op := op.mnemonic, rhs := lhs }
  else { lhs, op := op.mnemonic, rhs }

/-- The text by which a table knows an expression. -/
def Expression.key (e : Expression) : String := s!"{e.lhs} {e.op} {e.rhs}"

end BlockFlow.Numbering
