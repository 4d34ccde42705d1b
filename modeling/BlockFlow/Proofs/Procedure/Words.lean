import BlockFlow.Proofs.Description.Assembly

/-!
# Ids that are words

A builder calls values and blocks by their positions, which are natural numbers of any size. Where
ids are words of thirty-two bits, a position is cut down to a word when it becomes an id. Here is
the builder that does so. Main statement: for a procedure with no more values and no more blocks
than there are words it makes the same of the same calls, and answers the same ids. This is the one
limit under which a program that counts in words builds what is built here, from calls and from
descriptions; all that is shown of these procedures holds of that program within it. Beyond it the
first id is given out again.
-/

namespace BlockFlow

/-- What is left of a position that is cut down to a word. -/
def cutToWord (position : Nat) : Nat := position.toUInt32.toNat

/-- A position is left as it is exactly if there is a word for it. -/
theorem cutToWord_eq_self_iff {position : Nat} :
    cutToWord position = position ↔ position < UInt32.size := by
  have hcut : cutToWord position = position % UInt32.size := rfl
  rw [hcut]
  exact Nat.mod_eq_iff_lt (by decide)

namespace Procedure

/-- There are no more values and no more blocks than words. -/
structure WithinWords (p : Procedure) : Prop where
  values : p.values.size ≤ UInt32.size
  blocks : p.blocks.size ≤ UInt32.size

/-! ### The builder of words -/

/-- Allocates a value and answers its id. -/
def addWordValue (p : Procedure) (v : Value) : Procedure × ValueId :=
  ({ p with values := p.values.push v }, cutToWord p.values.size)

/-- Allocates a block without instructions and edges and answers its id. -/
def addWordBlock (p : Procedure) (name : String) : Procedure × BlockId :=
  let id := cutToWord p.blocks.size
  let block := { id, name, instructions := #[], successors := [], predecessors := [] }
  ({ p with blocks := p.blocks.push block }, id)

/-- Appends an instruction to a block, allocates its result and answers the result's id. -/
def appendWord (p : Procedure) (block : BlockId) (opcode : Opcode) (operands : List ValueId)
    (name : Option String) : Procedure × ValueId :=
  let position := ((p.block? block).map (·.instructions.size)).getD 0
  let (p, result) := p.addWordValue { name, definedBy := some (block, position) }
  let blocks := p.blocks.modify block fun b ↦
    { b with instructions := b.instructions.push { opcode, operands, result } }
  ({ p with blocks }, result)

/-- Carries out one call. An edge allocates nothing. -/
def buildWord (p : Procedure) : BuildStep → Except UnknownBlock (Procedure × Option Nat)
  | .value name =>
    let (p, id) := p.addWordValue { name := some name, definedBy := none }
    .ok (p, some id)
  | .anonymousValue =>
    let (p, id) := p.addWordValue { name := none, definedBy := none }
    .ok (p, some id)
  | .block name =>
    let (p, id) := p.addWordBlock name
    .ok (p, some id)
  | .instruction block opcode operands name =>
    if p.blocks.size ≤ block then .error ⟨block⟩
    else
      let (p, id) := p.appendWord block opcode operands name
      .ok (p, some id)
  | .edge source target => (p.addEdge source target).map fun p ↦ (p, none)

/-- Carries out calls in order, up to the first that names an unknown block. -/
def buildAllWords (p : Procedure) : List BuildStep → Except UnknownBlock Procedure
  | [] => .ok p
  | step :: steps => do
    let (p, _) ← p.buildWord step
    p.buildAllWords steps

/-! ### Within the limit -/

section

variable {p p' : Procedure}

theorem addWordValue_eq (h : p.values.size < UInt32.size) (v : Value) :
    p.addWordValue v = p.addValue v := by
  rw [addWordValue, cutToWord_eq_self_iff.mpr h]
  rfl

theorem addWordBlock_eq (h : p.blocks.size < UInt32.size) (name : String) :
    p.addWordBlock name = p.addBlock name := by
  rw [addWordBlock, cutToWord_eq_self_iff.mpr h]
  rfl

theorem appendWord_eq (h : p.values.size < UInt32.size) (block : BlockId) (opcode : Opcode)
    (operands : List ValueId) (name : Option String) :
    p.appendWord block opcode operands name = p.append block opcode operands name := by
  simp only [appendWord, append, addWordValue_eq h]

/-- A call that stays within the limit does the same with words. -/
theorem buildWord_eq {step : BuildStep} {id : Option Nat} (h : p.build step = .ok (p', id))
    (hwords : p'.WithinWords) : p.buildWord step = .ok (p', id) := by
  cases step with
  | value name =>
    cases h
    have hroom : p.values.size < UInt32.size := by
      simpa [addValue, Nat.succ_le_iff] using hwords.values
    rw [buildWord, addWordValue_eq hroom]
    rfl
  | anonymousValue =>
    cases h
    have hroom : p.values.size < UInt32.size := by
      simpa [addValue, Nat.succ_le_iff] using hwords.values
    rw [buildWord, addWordValue_eq hroom]
    rfl
  | block name =>
    cases h
    have hroom : p.blocks.size < UInt32.size := by
      simpa [addBlock, Nat.succ_le_iff] using hwords.blocks
    rw [buildWord, addWordBlock_eq hroom]
    rfl
  | instruction block opcode operands name =>
    dsimp only [build, addInstruction] at h
    split at h
    · cases h
    · next hb =>
      cases h
      have hroom : p.values.size < UInt32.size := by
        simpa [append, addValue, Nat.succ_le_iff] using hwords.values
      rw [buildWord, if_neg hb, appendWord_eq hroom]
  | edge source target => exact h

/-- Calls only add values and blocks. -/
theorem Built.size_le (h : Built p p') :
    p.values.size ≤ p'.values.size ∧ p.blocks.size ≤ p'.blocks.size := by
  cases h with
  | value name => simp [addValue]
  | block name => simp [addBlock]
  | instruction block opcode operands name hb => simp [append, addValue]
  | edge source target hs ht =>
    refine ⟨?_, by simp⟩
    unfold link
    split <;> exact Nat.le_refl _

/-- What is built within the limit was within it all along. -/
theorem WithinWords.of_buildAll {steps : List BuildStep} (h : p.buildAll steps = .ok p')
    (hwords : p'.WithinWords) : p.WithinWords := by
  have hgrown := buildAll_keeps
    (P := fun q ↦ p.values.size ≤ q.values.size ∧ p.blocks.size ≤ q.blocks.size)
    (fun q q' hq hbuilt ↦
      ⟨Nat.le_trans hq.1 hbuilt.size_le.1, Nat.le_trans hq.2 hbuilt.size_le.2⟩)
    ⟨Nat.le_refl _, Nat.le_refl _⟩ h
  exact ⟨Nat.le_trans hgrown.1 hwords.values, Nat.le_trans hgrown.2 hwords.blocks⟩

/-- Calls that stay within the limit build the same with words. -/
theorem buildAllWords_eq {steps : List BuildStep} (h : p.buildAll steps = .ok p')
    (hwords : p'.WithinWords) : p.buildAllWords steps = .ok p' := by
  induction steps generalizing p with
  | nil => exact h
  | cons step steps ih =>
    obtain ⟨⟨mid, id⟩, hstep, hrest⟩ := bind_eq_ok_iff.mp h
    have hmid : mid.WithinWords := .of_buildAll hrest hwords
    exact bind_eq_ok_iff.mpr ⟨_, buildWord_eq hstep hmid, ih hrest⟩

/-! ### Described procedures -/

/-- Each way to build on a procedure is a call. -/
theorem Built.exists_build (h : Built p p') : ∃ step id, p.build step = .ok (p', id) := by
  cases h with
  | value name =>
    cases name with
    | none => exact ⟨.anonymousValue, _, rfl⟩
    | some name => exact ⟨.value name, _, rfl⟩
  | block name => exact ⟨.block name, _, rfl⟩
  | instruction block opcode operands name hb =>
    refine ⟨.instruction block opcode operands name, some p.values.size, ?_⟩
    rw [build, addInstruction, if_neg (Nat.not_le_of_lt hb)]
    rfl
  | edge source target hs ht =>
    refine ⟨.edge source target, none, ?_⟩
    have hknown : ¬(target ∉ p.successors source ∧ p.blocks.size ≤ target) := by
      rw [not_and, Nat.not_le]
      exact fun hnew ↦ ht.resolve_left hnew
    rw [build, addEdge, if_neg (Nat.not_le_of_lt hs), if_neg hknown]
    rfl

/-- One more call may follow. -/
theorem buildAll_concat {start : Procedure} {steps : List BuildStep} {step : BuildStep}
    {id : Option Nat} (h : start.buildAll steps = .ok p) (hstep : p.build step = .ok (p', id)) :
    start.buildAll (steps ++ [step]) = .ok p' := by
  induction steps generalizing start with
  | nil =>
    cases h
    exact bind_eq_ok_iff.mpr ⟨_, hstep, rfl⟩
  | cons first steps ih =>
    obtain ⟨mid, hfirst, hrest⟩ := bind_eq_ok_iff.mp h
    exact bind_eq_ok_iff.mpr ⟨mid, hfirst, ih hrest⟩

end

end Procedure

/-- A described procedure is built by calls, which build it with words as well if it is within the
limit. -/
theorem ProcedureDesc.exists_buildAll_of_toProcedure {d : ProcedureDesc} {p : Procedure}
    (h : d.toProcedure = .ok p) :
    ∃ steps, (Procedure.empty d.name).buildAll steps = .ok p ∧
      (p.WithinWords → (Procedure.empty d.name).buildAllWords steps = .ok p) := by
  obtain ⟨hfault, rfl⟩ := toProcedure_eq_ok_iff.mp h
  obtain ⟨steps, hsteps⟩ : ∃ steps, (Procedure.empty d.name).buildAll steps = .ok d.assemble := by
    refine assemble_keeps (P := fun p ↦ ∃ steps, (Procedure.empty d.name).buildAll steps = .ok p)
      ?_ hfault ⟨[], rfl⟩
    rintro p p' ⟨steps, hsteps⟩ hbuilt
    obtain ⟨step, id, hstep⟩ := hbuilt.exists_build
    exact ⟨steps ++ [step], Procedure.buildAll_concat hsteps hstep⟩
  exact ⟨steps, hsteps, Procedure.buildAllWords_eq hsteps⟩

end BlockFlow
