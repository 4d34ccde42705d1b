import BlockFlow.Liveness.Summary

/-!
# What a summary says about the code of a block

Read off the instructions themselves, a load reads the variable that is its first operand and a
store writes the one that is its second; nothing else touches a variable. A use is exposed if no
store to its variable stands before it. The summary of a block holds the variables with an exposed
use and those with a store.
-/

namespace BlockFlow

/-- The instruction loads the variable. -/
def Instruction.Reads (inst : Instruction) (v : ValueId) : Prop :=
  inst.opcode = .load ∧ inst.operands[0]? = some v

/-- The instruction stores to the variable. -/
def Instruction.Writes (inst : Instruction) (v : ValueId) : Prop :=
  inst.opcode = .store ∧ inst.operands[1]? = some v

/-- An instruction reads a variable exactly if its effect is a load of it. -/
theorem Instruction.reads_iff (inst : Instruction) (v : ValueId) :
    inst.Reads v ↔ inst.effect = .load v := by
  obtain ⟨opcode, operands, result⟩ := inst
  unfold Reads effect
  cases opcode <;> rcases operands with _ | ⟨a, _ | ⟨b, rest⟩⟩ <;> simp

/-- An instruction writes a variable exactly if its effect is a store to it. -/
theorem Instruction.writes_iff (inst : Instruction) (v : ValueId) :
    inst.Writes v ↔ ∃ x, inst.effect = .store x v := by
  obtain ⟨opcode, operands, result⟩ := inst
  unfold Writes effect
  cases opcode <;> rcases operands with _ | ⟨a, _ | ⟨b, rest⟩⟩ <;> simp

namespace Liveness

/-- Some instruction of the code loads the variable, and none before it stores to it. -/
def Exposed (v : ValueId) (code : List Instruction) : Prop :=
  ∃ before inst rest, code = before ++ inst :: rest ∧ inst.Reads v ∧ ∀ i ∈ before, ¬i.Writes v

/-- Some instruction of the code stores to the variable. -/
def Overwritten (v : ValueId) (code : List Instruction) : Prop := ∃ inst ∈ code, inst.Writes v

/-! ### Code in parts -/

theorem not_exposed_nil (v : ValueId) : ¬Exposed v [] := by
  rintro ⟨before, inst, rest, h, -⟩
  simp at h

/-- The first instruction exposes its own use, and those after it unless it stores. -/
theorem exposed_cons (v : ValueId) (inst : Instruction) (code : List Instruction) :
    Exposed v (inst :: code) ↔ inst.Reads v ∨ ¬inst.Writes v ∧ Exposed v code := by
  constructor
  · rintro ⟨before, use, rest, hsplit, huse, hbefore⟩
    cases before with
    | nil =>
      obtain ⟨rfl, rfl⟩ := List.cons.inj hsplit
      exact .inl huse
    | cons first before =>
      obtain ⟨rfl, rfl⟩ := List.cons.inj hsplit
      refine .inr ⟨hbefore _ (by simp), before, use, rest, rfl, huse, ?_⟩
      exact fun i hi ↦ hbefore i (by simp [hi])
  · rintro (huse | ⟨hfirst, before, use, rest, rfl, huse, hbefore⟩)
    · exact ⟨[], inst, code, rfl, huse, by simp⟩
    · refine ⟨inst :: before, use, rest, rfl, huse, ?_⟩
      intro i hi
      rcases List.mem_cons.mp hi with rfl | hi
      · exact hfirst
      · exact hbefore i hi

theorem overwritten_cons (v : ValueId) (inst : Instruction) (code : List Instruction) :
    Overwritten v (inst :: code) ↔ inst.Writes v ∨ Overwritten v code := by
  simp [Overwritten]

/-- A use in the second part is exposed if the first part does not store to its variable. -/
theorem exposed_append (v : ValueId) (code code' : List Instruction) :
    Exposed v (code ++ code') ↔ Exposed v code ∨ ¬Overwritten v code ∧ Exposed v code' := by
  induction code with
  | nil => simp [not_exposed_nil, Overwritten]
  | cons inst code ih =>
    rw [List.cons_append, exposed_cons, exposed_cons, overwritten_cons, ih]
    rw [not_or, and_or_left, or_assoc, and_assoc]

/-! ### Summaries -/

/-- An instruction adds its use, unless its variable has been stored to before. -/
theorem mem_gen_extend (s : Equation ValueId) (inst : Instruction) (v : ValueId) :
    v ∈ (extend s inst.effect).gen ↔ v ∈ s.gen ∨ v ∉ s.kill ∧ inst.Reads v := by
  rw [Instruction.reads_iff]
  cases inst.effect with
  | load address =>
    dsimp only [extend]
    rw [Effect.load.injEq]
    split
    · next hkill =>
      constructor
      · exact .inl
      · rintro (hgen | ⟨hv, rfl⟩)
        · exact hgen
        · exact absurd hkill hv
    · next hkill =>
      rw [Std.ExtTreeSet.mem_insert, Std.LawfulEqCmp.compare_eq_iff_eq]
      constructor
      · rintro (rfl | hgen)
        · exact .inr ⟨hkill, rfl⟩
        · exact .inl hgen
      · rintro (hgen | ⟨-, rfl⟩)
        · exact .inr hgen
        · exact .inl rfl
  | store value address => simp [extend]
  | compute op lhs rhs => simp [extend]
  | none => simp [extend]

/-- An instruction adds the variable that it stores to. -/
theorem mem_kill_extend (s : Equation ValueId) (inst : Instruction) (v : ValueId) :
    v ∈ (extend s inst.effect).kill ↔ v ∈ s.kill ∨ inst.Writes v := by
  rw [Instruction.writes_iff]
  cases inst.effect with
  | load address =>
    dsimp only [extend]
    split <;> simp
  | store value address =>
    dsimp only [extend]
    rw [Std.ExtTreeSet.mem_insert, Std.LawfulEqCmp.compare_eq_iff_eq]
    simp [or_comm]
  | compute op lhs rhs => simp [extend]
  | none => simp [extend]

-- The summary of the code so far carries both sets: whether a use counts depends on the stores.
private theorem mem_foldl_extend (code : List Instruction) (s : Equation ValueId) (v : ValueId) :
    (v ∈ (code.foldl (fun s inst ↦ extend s inst.effect) s).gen ↔
      v ∈ s.gen ∨ v ∉ s.kill ∧ Exposed v code) ∧
    (v ∈ (code.foldl (fun s inst ↦ extend s inst.effect) s).kill ↔
      v ∈ s.kill ∨ Overwritten v code) := by
  induction code generalizing s with
  | nil => simp [not_exposed_nil, Overwritten]
  | cons inst code ih =>
    obtain ⟨hgen, hkill⟩ := ih (extend s inst.effect)
    rw [mem_gen_extend, mem_kill_extend] at hgen
    rw [mem_kill_extend] at hkill
    rw [List.foldl_cons, hgen, hkill, exposed_cons, overwritten_cons]
    rw [not_or, and_or_left, or_assoc, or_assoc, and_assoc]
    exact ⟨Iff.rfl, Iff.rfl⟩

/-- The generated facts of a block are its exposed uses. -/
theorem mem_gen_summary (b : BasicBlock) (v : ValueId) :
    v ∈ (summary b).gen ↔ Exposed v b.instructions.toList := by
  rw [summary, (mem_foldl_extend b.instructions.toList {} v).1]
  simp [Std.ExtTreeSet.not_mem_empty]

/-- The killed facts of a block are the variables that it stores to. -/
theorem mem_kill_summary (b : BasicBlock) (v : ValueId) :
    v ∈ (summary b).kill ↔ Overwritten v b.instructions.toList := by
  rw [summary, (mem_foldl_extend b.instructions.toList {} v).2]
  simp [Std.ExtTreeSet.not_mem_empty]

end Liveness

end BlockFlow
