/-!
# Opcodes

Loads, stores and five arithmetic operators take part in the analyses; every other instruction is
carried along under its mnemonic.
-/

namespace BlockFlow

/-- What an instruction does. -/
inductive Opcode where
  | load
  | store
  | add
  | sub
  | mul
  | unsignedDiv
  | signedDiv
  /-- An instruction that the analyses pass over, under the name its producer gives it. -/
  | other (name : String)
  deriving DecidableEq, Repr, Inhabited

namespace Opcode

/-- The spelling used in instruction texts and in expression keys. -/
def mnemonic : Opcode → String
  | load => "load"
  | store => "store"
  | add => "add"
  | sub => "sub"
  | mul => "mul"
  | unsignedDiv => "udiv"
  | signedDiv => "sdiv"
  | other name => name

/-- The opcode of a mnemonic; an unknown mnemonic stands for itself. -/
def ofMnemonic (text : String) : Opcode :=
  if text = "load" then load
  else if text = "store" then store
  else if text = "add" then add
  else if text = "sub" then sub
  else if text = "mul" then mul
  else if text = "udiv" then unsignedDiv
  else if text = "sdiv" then signedDiv
  else other text

/-- An operator that computes a value from two operands. -/
def isBinary : Opcode → Bool
  | add | sub | mul | unsignedDiv | signedDiv => true
  | _ => false

/-- An operator whose operands may change places. -/
def isCommutative : Opcode → Bool
  | add | mul => true
  | _ => false

/-- The number of operands that the analyses read; more are allowed. -/
def arity : Opcode → Nat
  | load => 1
  | other _ => 0
  | _ => 2

/-- Whether an instruction text names the result: a store never does, an uninterpreted
instruction does when its result has a name. -/
def showsResult (named : Bool) : Opcode → Bool
  | store => false
  | other _ => named
  | _ => true

/-- Reading a mnemonic keeps its spelling. -/
@[simp]
theorem mnemonic_ofMnemonic (text : String) : (ofMnemonic text).mnemonic = text := by
  unfold ofMnemonic
  repeat' split
  all_goals simp_all [mnemonic]

/-- Sums and products are all that commutes. -/
theorem isCommutative_iff (op : Opcode) : op.isCommutative = true ↔ op = .add ∨ op = .mul := by
  cases op <;> simp [isCommutative]

end Opcode

end BlockFlow
