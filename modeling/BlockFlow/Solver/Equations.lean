import BlockFlow.FactSet
import BlockFlow.Procedure

/-!
# Backward dataflow equations

For every block `b` a table gives the facts that `b` generates and the facts that it kills. The
sets to be found satisfy

`OUT b = ⋃ s ∈ successors b, GEN s ∪ (OUT s \ KILL s)`.

For liveness the generated facts are the upward-exposed uses of a block and the killed ones are the
variables that it stores to.
-/

namespace BlockFlow

/-- What one block does to the facts that hold at its end. -/
structure Equation (α : Type) [FactOrder α] where
  gen : FactSet α := ∅
  kill : FactSet α := ∅

/-- A table of equations: one row for each of the blocks `0, …, n - 1`. -/
abbrev Equations (α : Type) [FactOrder α] (n : Nat) : Type := Vector (Equation α) n

/-- A set of facts for each of the blocks `0, …, n - 1`. -/
abbrev FactSets (α : Type) [FactOrder α] (n : Nat) : Type := Vector (FactSet α) n

section Rows

-- A row is read by `Vector.get`: its index is known to be in bounds, so that no definition and no
-- statement has to hold a proof of it.
variable {β γ : Type} {n : Nat}

/-- A table with one of its rows replaced. -/
def replaceRow (rows : Vector β n) (row : Fin n) (x : β) : Vector β n := rows.set row x row.isLt

/-- Replacing a row changes that row only. -/
theorem get_replaceRow (rows : Vector β n) (i j : Fin n) (x : β) :
    (replaceRow rows i x).get j = if i = j then x else rows.get j := by
  change (rows.set i x)[j.val] = if i = j then x else rows[j.val]
  simp only [Vector.getElem_set, Fin.ext_iff]

/-- Replacing a row by itself changes nothing. -/
theorem replaceRow_get (rows : Vector β n) (i : Fin n) : replaceRow rows i (rows.get i) = rows :=
  Vector.set_getElem_self i.isLt

@[simp]
theorem get_replicate (x : β) (i : Fin n) : (Vector.replicate n x).get i = x :=
  Vector.getElem_replicate i.isLt

@[simp]
theorem get_map (f : β → γ) (rows : Vector β n) (i : Fin n) :
    (rows.map f).get i = f (rows.get i) :=
  Vector.getElem_map f i.isLt

end Rows

variable {α : Type} [FactOrder α] {n : Nat}

/-- The facts at the start of a block whose end sees `out`: `GEN ∪ (OUT \ KILL)`. -/
def Equation.transfer (e : Equation α) (out : FactSet α) : FactSet α := e.gen ∪ (out \ e.kill)

@[simp]
theorem Equation.mem_transfer {e : Equation α} {out : FactSet α} {f : α} :
    f ∈ e.transfer out ↔ f ∈ e.gen ∨ f ∈ out ∧ f ∉ e.kill := by
  simp [transfer, Std.ExtTreeSet.mem_union_iff, Std.ExtTreeSet.mem_diff_iff]

namespace Equations

/-- The table in which no block generates or kills a fact. -/
def trivial (n : Nat) : Equations α n := Vector.replicate n {}

/-- Replaces a row; there is none for a block outside the table. -/
def setRow? (eqs : Equations α n) (block : Nat) (row : Equation α) : Option (Equations α n) :=
  if h : block < n then some (eqs.set block row h) else none

/-- The facts at the start of a block; none for a block outside the table. -/
def transfer? (eqs : Equations α n) (block : BlockId) (out : FactSet α) : Option (FactSet α) :=
  eqs[block]?.map (·.transfer out)

end Equations

end BlockFlow
