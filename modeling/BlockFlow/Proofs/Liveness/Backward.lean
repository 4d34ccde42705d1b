import BlockFlow.Proofs.Liveness.Paths

/-!
# Liveness instruction by instruction

Walking code backwards from the variables that are live after it, a load makes its variable live, a
store ends the life of its variable, and nothing else matters. The summary of a block is found by a
forward pass that has to remember what it has seen stored; main statement: both lead to the same
variables at the start of the block, so those that a report gives as live there are what the walk
through the block arrives at.
-/

namespace BlockFlow.Liveness

/-- The variables that are live before an instruction, from those that are live after it. -/
def stepBack (inst : Instruction) (live : FactSet ValueId) : FactSet ValueId :=
  match inst.opcode with
  | .load =>
    match inst.operands[0]? with
    | some v => live.insert v
    | none => live
  | .store =>
    match inst.operands[1]? with
    | some v => live.erase v
    | none => live
  | _ => live

/-- The variables that are live before code, from those that are live after it. -/
def walkBack (code : List Instruction) (live : FactSet ValueId) : FactSet ValueId :=
  code.foldr stepBack live

/-- A variable is live before an instruction that reads it, and before one that does not write it
if it is live after. -/
theorem mem_stepBack (inst : Instruction) (live : FactSet ValueId) (v : ValueId) :
    v ∈ stepBack inst live ↔ inst.Reads v ∨ v ∈ live ∧ ¬inst.Writes v := by
  obtain ⟨opcode, operands, result⟩ := inst
  unfold stepBack Instruction.Reads Instruction.Writes
  cases opcode with
  | load =>
    cases h : operands[0]? with
    | none => simp
    | some u => simp [Std.ExtTreeSet.mem_insert]
  | store =>
    cases h : operands[1]? with
    | none => simp
    | some u => simp [Std.ExtTreeSet.mem_erase, and_comm]
  | _ => simp

/-- A variable is live before code that exposes a use of it, and before code that does not store to
it if it is live after. -/
theorem mem_walkBack (code : List Instruction) (live : FactSet ValueId) (v : ValueId) :
    v ∈ walkBack code live ↔ Exposed v code ∨ v ∈ live ∧ ¬Overwritten v code := by
  induction code with
  | nil => simp [walkBack, not_exposed_nil, Overwritten]
  | cons inst code ih =>
    rw [walkBack, List.foldr_cons, ← walkBack, mem_stepBack, ih, exposed_cons, overwritten_cons]
    tauto

/-- The facts that a summary lets through a block are those of the walk through its code. -/
theorem transfer_summary (b : BasicBlock) (live : FactSet ValueId) :
    (summary b).transfer live = walkBack b.instructions.toList live := by
  ext v
  rw [Equation.mem_transfer, mem_gen_summary, mem_kill_summary, mem_walkBack]

/-- What a report gives as live at the start of a block is what the block lets through. -/
theorem liveIn_eq_transfer (block : BlockId) (name : String) (e : Equation ValueId)
    (live : FactSet ValueId) :
    BlockReport.liveIn ⟨block, name, e.gen, e.kill, live⟩ = e.transfer live :=
  rfl

/-- The summary of a block, found in one forward pass, lets through what walking its instructions
backwards arrives at, whatever is live at its end. In every report there is one entry for each
block, in order, and what an entry gives as live at the start of its block is where the walk
through the block arrives from what the entry gives as live at the end. -/
theorem summary_walks_back :
    (∀ (b : BasicBlock) (live : FactSet ValueId),
      (summary b).transfer live = walkBack b.instructions.toList live) ∧
    ∀ (solver : Solver) (p : Procedure) (report : Report), analyze solver p = .ok report →
      List.Forall₂ (fun (b : BasicBlock) (entry : BlockReport) ↦ entry.block = b.id ∧
        entry.liveIn = walkBack b.instructions.toList entry.liveOut)
        p.blocks.toList report.blocks := by
  refine ⟨transfer_summary, ?_⟩
  intro solver p report h
  obtain ⟨-, solution, -, hblocks⟩ := exists_solution_of_analyze h
  rw [hblocks, List.forall₂_iff_get]
  refine ⟨by simp, ?_⟩
  intro i hi hi'
  have hsize : i < p.blocks.size := by simpa using hi
  simp only [List.get_eq_getElem, List.getElem_map, List.getElem_finRange, Array.getElem_toList]
  refine ⟨rfl, ?_⟩
  rw [liveIn_eq_transfer, get_summaries]
  exact transfer_summary _ _

/-- A block that uses a variable, stores to it and loads it again, with some operands missing. -/
def reuse : BasicBlock where
  id := 0
  name := "reuse"
  instructions := #[⟨.load, [0], 4⟩, ⟨.store, [4, 0], 5⟩, ⟨.load, [0], 6⟩, ⟨.store, [3], 7⟩,
    ⟨.add, [1, 2], 8⟩, ⟨.store, [8, 3], 9⟩, ⟨.load, [], 10⟩]
  successors := []
  predecessors := []

/-- The walk through one block, and through the blocks of the loop from what is live at their
ends. -/
theorem loop_walks_back :
    (summary reuse).transfer (.ofList [3, 11]) =
      walkBack reuse.instructions.toList (.ofList [3, 11]) ∧
    walkBack reuse.instructions.toList (.ofList [3, 11]) = .ofList [0, 11] ∧
    ∃ report, analyze ⟨.worklist, 9⟩ loop = .ok report ∧
      List.Forall₂ (fun (b : BasicBlock) (entry : BlockReport) ↦ entry.block = b.id ∧
        entry.liveIn = walkBack b.instructions.toList entry.liveOut)
        loop.blocks.toList report.blocks := by
  have hsolved : (analyze ⟨.worklist, 9⟩ loop).isOk = true := by decide +kernel
  obtain ⟨report, h⟩ := exists_of_isOk hsolved
  refine ⟨summary_walks_back.1 reuse _, by decide +kernel, report, h, ?_⟩
  exact summary_walks_back.2 ⟨.worklist, 9⟩ loop report h

end BlockFlow.Liveness
