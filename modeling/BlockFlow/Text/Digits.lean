/-!
# Digits

Numbers written with digits in a base of at most sixteen.
-/

namespace BlockFlow.Text

/-- The value of a hexadecimal digit, in either case. -/
def hexValue? (c : Char) : Option Nat :=
  if '0' ≤ c ∧ c ≤ '9' then some (c.toNat - '0'.toNat)
  else if 'a' ≤ c ∧ c ≤ 'f' then some (c.toNat - 'a'.toNat + 10)
  else if 'A' ≤ c ∧ c ≤ 'F' then some (c.toNat - 'A'.toNat + 10)
  else none

/-- The number that digits write in a base, the most significant digit first. Every digit has to be
below the base, and there has to be one. -/
def number? (base : Nat) (digits : List Char) : Option Nat := do
  guard (!digits.isEmpty)
  let values ← digits.mapM fun d ↦ (hexValue? d).filter (· < base)
  return values.foldl (fun n d ↦ n * base + d) 0

/-- The largest number of thirty-two bits: the largest id or version that a file may hold. -/
def maxWord32 : Nat := UInt32.size - 1

/-- The largest number of sixty-four bits: the largest position or count that a file may hold. -/
def maxWord64 : Nat := UInt64.size - 1

end BlockFlow.Text
