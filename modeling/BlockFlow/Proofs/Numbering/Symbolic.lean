import BlockFlow.Procedure.Effect
import BlockFlow.Proofs.Numbering.Term
import Mathlib.Logic.Function.Basic

/-!
# Symbolic scans

A symbolic scan runs instructions on a store of terms, in which every value stands for itself at
first. A load copies the term of the variable to the result, a store copies the term of the stored
value to the variable, and an operator gives its result a new term, which is also noted as computed.
Everything else, instructions that lack operands included, changes nothing.
-/

namespace BlockFlow.Numbering

/-- The terms of all values, and the terms that operators have computed, the latest first. -/
structure Symbolic where
  store : ValueId → Term
  computed : List Term

namespace Symbolic

/-- Every value stands for itself and nothing has been computed. -/
def start : Symbolic where
  store := .var
  computed := []

/-- Gives a value a term. -/
def assign (s : Symbolic) (v : ValueId) (term : Term) : Symbolic :=
  { s with store := Function.update s.store v term }

/-- Notes a term as computed. -/
def note (s : Symbolic) (term : Term) : Symbolic := { s with computed := term :: s.computed }

/-- The term that an instruction computes, if it is an operator with two operands. -/
def computes? (s : Symbolic) (inst : Instruction) : Option Term :=
  match inst.operands with
  | lhs :: rhs :: _ =>
    if inst.opcode.isBinary then some (.apply inst.opcode (s.store lhs) (s.store rhs)) else none
  | _ => none

/-- Runs one instruction. -/
def step (s : Symbolic) (inst : Instruction) : Symbolic :=
  match inst.opcode, inst.operands with
  | .load, address :: _ => s.assign inst.result (s.store address)
  | .store, value :: address :: _ => s.assign address (s.store value)
  | op, lhs :: rhs :: _ =>
    if op.isBinary then
      (s.note (.apply op (s.store lhs) (s.store rhs))).assign inst.result
        (.apply op (s.store lhs) (s.store rhs))
    else s
  | _, _ => s

/-- Runs instructions in order. -/
def run (sites : List Site) : Symbolic :=
  sites.foldl (fun s site ↦ s.step site.instruction) start

/-- An assignment changes the term of its value only. -/
theorem store_assign (s : Symbolic) (v w : ValueId) (term : Term) :
    (s.assign v term).store w = if v = w then term else s.store w := by
  simp [assign, Function.update_apply, eq_comm]

/-- An instruction does to terms what its effect says. -/
theorem step_eq (s : Symbolic) (inst : Instruction) :
    s.step inst = match inst.effect with
      | .load address => s.assign inst.result (s.store address)
      | .store value address => s.assign address (s.store value)
      | .compute op lhs rhs =>
        (s.note (.apply op (s.store lhs) (s.store rhs))).assign inst.result
          (.apply op (s.store lhs) (s.store rhs))
      | .none => s := by
  obtain ⟨opcode, operands, result⟩ := inst
  unfold step Instruction.effect
  cases opcode <;> rcases operands with _ | ⟨a, _ | ⟨b, rest⟩⟩ <;> rfl

/-- What an instruction computes can be read off its effect. -/
theorem computes?_eq (s : Symbolic) (inst : Instruction) :
    s.computes? inst = match inst.effect with
      | .compute op lhs rhs => some (.apply op (s.store lhs) (s.store rhs))
      | _ => none := by
  obtain ⟨opcode, operands, result⟩ := inst
  unfold computes? Instruction.effect
  cases opcode <;> rcases operands with _ | ⟨a, _ | ⟨b, rest⟩⟩ <;> rfl

/-- The last instruction runs on what the others leave. -/
theorem run_append_singleton (sites : List Site) (site : Site) :
    run (sites ++ [site]) = (run sites).step site.instruction := by
  rw [run, List.foldl_append]
  rfl

end Symbolic

/-- Only operators compute. -/
theorem isBinary_of_effect {inst : Instruction} {op : Opcode} {lhs rhs : ValueId}
    (h : inst.effect = .compute op lhs rhs) : op.isBinary = true := by
  obtain ⟨opcode, operands, result⟩ := inst
  unfold Instruction.effect at h
  cases opcode <;> rcases operands with _ | ⟨a, _ | ⟨b, rest⟩⟩ <;> cases h <;> rfl

end BlockFlow.Numbering
