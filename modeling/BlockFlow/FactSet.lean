import Std.Data.ExtTreeSet.Lemmas

/-!
# Finite sets of facts

The facts of a dataflow problem are value ids or names. A `FactSet` keeps them in ascending order
and is extensional: two sets with the same members are equal, so "this set did not change" is
equality, and a listing is ascending without being sorted first.
-/

namespace BlockFlow

/-- A type of facts: its order is total and tells different facts apart. -/
class FactOrder (α : Type) extends Ord α, Std.TransOrd α, Std.LawfulEqOrd α

instance : FactOrder Nat where
instance : FactOrder String where

/-- A finite set of facts. -/
abbrev FactSet (α : Type) [FactOrder α] : Type := Std.ExtTreeSet α compare

namespace FactSet

variable {α : Type} [FactOrder α]

/-- The set of the members of a list. -/
def ofList (facts : List α) : FactSet α := facts.foldr (fun f set ↦ set.insert f) ∅

/-- The union of finitely many sets. -/
def join (sets : List (FactSet α)) : FactSet α := sets.foldr (· ∪ ·) ∅

@[simp]
theorem mem_ofList {facts : List α} {f : α} : f ∈ ofList facts ↔ f ∈ facts := by
  induction facts with
  | nil => simp [ofList, Std.ExtTreeSet.not_mem_empty]
  | cons g rest ih =>
    rw [ofList] at ih
    simp [ofList, Std.ExtTreeSet.mem_insert, Std.LawfulEqCmp.compare_eq_iff_eq, ih, @eq_comm _ f]

@[simp]
theorem mem_join {sets : List (FactSet α)} {f : α} : f ∈ join sets ↔ ∃ s ∈ sets, f ∈ s := by
  induction sets with
  | nil => simp [join, Std.ExtTreeSet.not_mem_empty]
  | cons s rest ih =>
    rw [join] at ih
    simp [join, Std.ExtTreeSet.mem_union_iff, ih]

end FactSet

end BlockFlow
