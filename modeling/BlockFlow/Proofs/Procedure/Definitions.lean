import BlockFlow.Proofs.Procedure.Code
import Mathlib.Data.List.Nodup

/-!
# What holds of every procedure that a builder makes

An appended instruction is the newest of its block, its result is the newest value of the arena, and
the two name each other; no other call touches instructions or says where a value is defined. So in
a built procedure a value is said to be defined at a place exactly if it is the result of the
instruction there. An edge is looked for among the successors of its source only: since the two
edge lists mirror each other it is then new to both, and neither list ever repeats an entry.

Main statement: all this holds after every sequence of calls that succeed, and the next call fails
exactly if it names a block that has not been allocated.
-/

namespace BlockFlow

/-- The blocks that a call names. -/
def BuildStep.namedBlocks : BuildStep → List BlockId
  | .value _ | .anonymousValue | .block _ => []
  | .instruction b _ _ _ => [b]
  | .edge source target => [source, target]

namespace Procedure

variable {p p' : Procedure}

/-! ### Definitions and results -/

/-- Where a value is said to be defined. -/
def site? (p : Procedure) (id : ValueId) : Option (BlockId × Nat) :=
  (p.value? id).bind Value.definedBy

/-- The result of the instruction at a position of a block. -/
def result? (p : Procedure) (b : BlockId) (i : Nat) : Option ValueId :=
  (p.instruction? b i).map Instruction.result

/-- A value that has not been allocated is not said to be defined anywhere. -/
theorem site?_of_le {id : ValueId} (h : p.values.size ≤ id) : p.site? id = none := by
  simp [site?, value?, h]

/-- There is no result behind the code of a block. -/
theorem result?_of_le {b : BlockId} {i : Nat} (h : (p.code b).length ≤ i) :
    p.result? b i = none := by
  rw [result?, ← getElem?_code, List.getElem?_eq_none h]
  rfl

/-- Results are read off the code of a block. -/
theorem result?_congr {b : BlockId} (h : p'.code b = p.code b) (i : Nat) :
    p'.result? b i = p.result? b i := by
  rw [result?, result?, ← getElem?_code, ← getElem?_code, h]

/-- A new value is defined where it says, and every other one where it was. -/
theorem site?_addValue (v : Value) (id : ValueId) :
    (p.addValue v).1.site? id = if id = p.values.size then v.definedBy else p.site? id := by
  simp only [site?, value?, addValue, Array.getElem?_push]
  split <;> rfl

/-- The new result is defined at the end of the code of its block. -/
theorem site?_append (block : BlockId) (opcode : Opcode) (operands : List ValueId)
    (name : Option String) (id : ValueId) :
    (p.append block opcode operands name).1.site? id =
      if id = p.values.size then some (block, (p.code block).length) else p.site? id := by
  have hposition : ((p.block? block).map (·.instructions.size)).getD 0 =
      (p.code block).length := by
    cases h : p.block? block <;> simp [code, h]
  rw [← hposition]
  exact site?_addValue _ id

/-- The new instruction stands at the end of the code of its block. -/
theorem result?_append {block : BlockId} (hblock : block < p.blocks.size) (opcode : Opcode)
    (operands : List ValueId) (name : Option String) (b : BlockId) (i : Nat) :
    (p.append block opcode operands name).1.result? b i =
      if block = b ∧ i = (p.code b).length then some p.values.size else p.result? b i := by
  rw [result?, result?, ← getElem?_code, ← getElem?_code, p.code_append hblock]
  by_cases hb : block = b
  · subst hb
    by_cases hi : i = (p.code block).length
    · simp [hi]
    · have hold : (p.code block ++ [⟨opcode, operands, p.values.size⟩])[i]? =
          (p.code block)[i]? := by
        simp only [List.getElem?_append, List.getElem?_singleton]
        grind
      simp [hi, hold]
  · simp [hb]

/-- A value is said to be defined at a place exactly if it is the result of the instruction
there. -/
def DefinitionsAgree (p : Procedure) : Prop :=
  ∀ id b i, p.site? id = some (b, i) ↔ p.result? b i = some id

/-- A value that has not been allocated is no result. -/
theorem DefinitionsAgree.result?_ne (hp : p.DefinitionsAgree) {id : ValueId}
    (h : p.values.size ≤ id) (b : BlockId) (i : Nat) : p.result? b i ≠ some id := by
  intro hresult
  have hsite := (hp id b i).mpr hresult
  rw [site?_of_le h] at hsite
  cases hsite

/-- Calls keep definitions and results in agreement. -/
theorem DefinitionsAgree.built (hp : p.DefinitionsAgree) (h : Built p p') :
    p'.DefinitionsAgree := by
  intro id b i
  cases h with
  | value name =>
    change (p.addValue { name, definedBy := none }).1.site? id = some (b, i) ↔
      p.result? b i = some id
    rw [site?_addValue]
    split
    · next hid =>
      have hnone := hp.result?_ne (Nat.le_of_eq hid.symm) b i
      simp [hnone]
    · exact hp id b i
  | block name =>
    rw [result?_congr (p.code_addBlock name b)]
    exact hp id b i
  | instruction block opcode operands name hblock =>
    rw [site?_append, result?_append hblock]
    by_cases hid : id = p.values.size
    · -- the place of the new result is the new place, and no older place has this result
      have hother := hp.result?_ne (Nat.le_of_eq hid.symm) b i
      subst hid
      rw [if_pos rfl]
      by_cases hplace : block = b ∧ i = (p.code b).length
      · simp [hplace]
      · grind
    · rw [if_neg hid, hp]
      split
      · next hplace =>
        rw [result?_of_le (Nat.le_of_eq hplace.2.symm)]
        simp [Ne.symm hid]
      · rfl
  | edge source target hs ht =>
    have hsite : (p.link source target).site? id = p.site? id := by
      unfold link
      split <;> rfl
    rw [hsite, result?_congr (p.code_link source target b)]
    exact hp id b i

/-! ### Repetitions -/

/-- A new edge stands at the end of the successors of its source. -/
theorem successors_link {source target : BlockId} (hs : source < p.blocks.size)
    (h : target ∉ p.successors source) (b : BlockId) :
    (p.link source target).successors b =
      if source = b then p.successors b ++ [target] else p.successors b := by
  rw [successors, successors, block?_link h]
  by_cases hb : source = b
  · subst hb
    have hblock : p.block? source = some p.blocks[source] := Array.getElem?_eq_getElem hs
    simp [hblock]
  · cases p.block? b <;> simp [hb]

/-- A new edge stands at the end of the predecessors of its target. -/
theorem predecessors_link {source target : BlockId} (ht : target < p.blocks.size)
    (h : target ∉ p.successors source) (b : BlockId) :
    (p.link source target).predecessors b =
      if target = b then p.predecessors b ++ [source] else p.predecessors b := by
  rw [predecessors, predecessors, block?_link h]
  by_cases hb : target = b
  · subst hb
    have hblock : p.block? target = some p.blocks[target] := Array.getElem?_eq_getElem ht
    simp [hblock]
  · cases p.block? b <;> simp [hb]

/-- No edge list repeats an entry. -/
def EdgesDistinct (p : Procedure) : Prop :=
  ∀ b, (p.successors b).Nodup ∧ (p.predecessors b).Nodup

/-- Calls enter no edge twice where edges are mirrored. -/
theorem EdgesDistinct.built (hp : p.EdgesDistinct) (hmirrored : p.EdgesMirrored)
    (h : Built p p') : p'.EdgesDistinct := by
  intro b
  cases h with
  | value name => exact hp b
  | block name =>
    rw [successors_addBlock, predecessors_addBlock]
    exact hp b
  | instruction block opcode operands name hblock =>
    rw [successors_append, predecessors_append]
    exact hp b
  | edge source target hs ht =>
    by_cases h : target ∈ p.successors source
    · rw [link, if_pos h]
      exact hp b
    · -- only the successors were searched, but what is not there is not mirrored either
      have hback : source ∉ p.predecessors target := fun hmem ↦ h ((hmirrored _ _).mpr hmem)
      rw [successors_link hs h, predecessors_link (ht.resolve_left h) h]
      constructor
      · split
        · next hb => simpa using (hp b).1.concat (hb ▸ h)
        · exact (hp b).1
      · split
        · next hb => simpa using (hp b).2.concat (hb ▸ hback)
        · exact (hp b).2

/-! ### Runs of calls -/

/-- Blocks, edges, values and instructions of a procedure fit together. -/
structure WellBuilt (p : Procedure) : Prop where
  placed : ∀ i b, p.block? i = some b → b.id = i
  successors_known : ∀ b, ∀ s ∈ p.successors b, s < p.blocks.size
  predecessors_known : ∀ b, ∀ q ∈ p.predecessors b, q < p.blocks.size
  successors_nodup : ∀ b, (p.successors b).Nodup
  predecessors_nodup : ∀ b, (p.predecessors b).Nodup
  mirrored : ∀ b s, s ∈ p.successors b ↔ b ∈ p.predecessors s
  result_defined : ∀ b i inst, p.instruction? b i = some inst →
    ∃ v, p.value? inst.result = some v ∧ v.definedBy = some (b, i)
  definition_result : ∀ id v b i, p.value? id = some v → v.definedBy = some (b, i) →
    ∃ inst, p.instruction? b i = some inst ∧ inst.result = id
  result_unshared : ∀ b i inst b' i' inst', p.instruction? b i = some inst →
    p.instruction? b' i' = some inst' → inst.result = inst'.result → b = b' ∧ i = i'

/-- What calls keep. -/
structure Intact (p : Procedure) : Prop where
  coherent : p.Coherent
  distinct : p.EdgesDistinct
  definitions : p.DefinitionsAgree

theorem intact_empty (name : String) : (empty name).Intact := by
  refine ⟨coherent_empty name, ?_, ?_⟩
  · intro b
    simp [successors, predecessors, block?, empty]
  · intro id b i
    simp [site?, value?, result?, instruction?, block?, empty]

/-- Calls keep a procedure intact. -/
theorem Intact.built (hp : p.Intact) (h : Built p p') : p'.Intact :=
  ⟨hp.coherent.built h, hp.distinct.built hp.coherent.mirrored h, hp.definitions.built h⟩

/-- An intact procedure is well built. -/
theorem Intact.wellBuilt (hp : p.Intact) : p.WellBuilt where
  placed := hp.coherent.placed
  successors_known := hp.coherent.known
  predecessors_known := hp.coherent.predecessors_lt
  successors_nodup b := (hp.distinct b).1
  predecessors_nodup b := (hp.distinct b).2
  mirrored := hp.coherent.mirrored
  result_defined := by
    intro b i inst hinst
    have hsite : p.site? inst.result = some (b, i) := by
      rw [hp.definitions, result?, hinst]
      rfl
    exact Option.bind_eq_some_iff.mp hsite
  definition_result := by
    intro id v b i hv hdefined
    have hresult : p.result? b i = some id := by
      rw [← hp.definitions, site?, hv]
      exact hdefined
    exact Option.map_eq_some_iff.mp hresult
  result_unshared := by
    intro b i inst b' i' inst' hinst hinst' hresult
    have hsite : p.site? inst.result = some (b, i) := by
      rw [hp.definitions, result?, hinst]
      rfl
    have hsite' : p.site? inst.result = some (b', i') := by
      rw [hp.definitions, result?, hinst', hresult]
      rfl
    simpa using hsite.symm.trans hsite'

/-- Every procedure that is built from the empty one is well built. -/
theorem wellBuilt_of_buildAll {name : String} {steps : List BuildStep}
    (h : (empty name).buildAll steps = .ok p) : p.WellBuilt := by
  have hp : p.Intact := buildAll_keeps (fun _ _ hp hbuilt ↦ hp.built hbuilt) (intact_empty name) h
  exact hp.wellBuilt

/-- Where edges lead to blocks, a call fails exactly if it names an unknown block. -/
theorem build_fails_iff (hp : p.EdgesKnown) (step : BuildStep) :
    (∃ e, p.build step = .error e) ↔ ∃ b ∈ step.namedBlocks, p.block? b = none := by
  cases step with
  | value name => simp [build, BuildStep.namedBlocks]
  | anonymousValue => simp [build, BuildStep.namedBlocks]
  | block name => simp [build, BuildStep.namedBlocks]
  | instruction block opcode operands name =>
    simp only [build, addInstruction, map_eq_error_iff, BuildStep.namedBlocks, List.mem_singleton,
      exists_eq_left, block?, Array.getElem?_eq_none_iff]
    split <;> simp [*]
  | edge source target =>
    simp only [build, addEdge, map_eq_error_iff, BuildStep.namedBlocks, List.mem_cons,
      List.not_mem_nil, or_false, exists_eq_or_imp, exists_eq_left, block?,
      Array.getElem?_eq_none_iff]
    -- an edge that is already there is not looked up at its target, which is a block then
    have hknown : target ∈ p.successors source → target < p.blocks.size := hp source target
    split
    · next hs => simp [hs]
    · next hs =>
      split
      · next ht => simp [ht.2]
      · next ht =>
        simp only [reduceCtorEq, exists_false, hs, false_or, false_iff]
        grind

/-- After every sequence of calls that succeed the procedure is well built, and a further call
fails exactly if it names a block that has not been allocated. -/
theorem buildAll_invariant (name : String) (steps : List BuildStep) (p : Procedure)
    (h : (empty name).buildAll steps = .ok p) :
    p.WellBuilt ∧
    ∀ step, (∃ e, p.build step = .error e) ↔ ∃ b ∈ step.namedBlocks, p.block? b = none := by
  have hp : p.WellBuilt := wellBuilt_of_buildAll h
  exact ⟨hp, build_fails_iff hp.successors_known⟩

/-- Edges that are entered twice, one of them from a block to itself, between instructions that
are appended to two blocks in turn. -/
def knotSteps : List BuildStep := [
  .block "left", .instruction 0 (.other "phi") [7, 7] (some "x"), .block "right", .edge 1 0,
  .anonymousValue, .edge 1 1, .instruction 1 .store [0] none, .edge 1 0, .edge 0 1,
  .instruction 0 .add [0, 1] none, .edge 1 1, .value "x"]

/-- The procedure that these steps build. -/
def knot : Procedure where
  name := "knot"
  values := #[⟨some "x", some (0, 0)⟩, ⟨none, none⟩, ⟨none, some (1, 0)⟩, ⟨none, some (0, 1)⟩,
    ⟨some "x", none⟩]
  blocks := #[
    { id := 0, name := "left", instructions := #[⟨.other "phi", [7, 7], 0⟩, ⟨.add, [0, 1], 3⟩]
      successors := [1], predecessors := [1] },
    { id := 1, name := "right", instructions := #[⟨.store, [0], 2⟩], successors := [0, 1]
      predecessors := [1, 0] }]

/-- The knot is well built, and its next call may enter a known edge again but name no third
block. -/
theorem knot_invariant :
    (empty "knot").buildAll knotSteps = .ok knot ∧ knot.WellBuilt ∧
    (∃ e, knot.build (.edge 1 2) = .error e) ∧ ¬∃ e, knot.build (.edge 1 0) = .error e := by
  have hbuilt : (empty "knot").buildAll knotSteps = .ok knot := by rfl
  obtain ⟨hknot, hfails⟩ := buildAll_invariant "knot" knotSteps knot hbuilt
  refine ⟨hbuilt, hknot, (hfails _).mpr ⟨2, by decide, by decide⟩, ?_⟩
  rw [hfails]
  decide

end Procedure

end BlockFlow
