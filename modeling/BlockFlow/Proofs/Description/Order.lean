import BlockFlow.Proofs.Description.Assembly
import BlockFlow.Proofs.Procedure.Code

/-!
# Assembled code is in order

Instructions are placed block by block, and each allocates its result when it is placed. A name is
resolved to a value that is there by then. So in the code of an assembled procedure results ascend,
and no instruction has an operand as young as its own result.
-/

namespace BlockFlow

namespace Assembly

/-- Up to some block the code is placed and in order, and all that is in use is allocated. -/
structure Orderly (block : BlockId) (a : Assembly) : Prop where
  inOrder : InOrder a.procedure.scanned
  allocated : ∀ inst ∈ a.procedure.scanned, inst.result < a.procedure.values.size
  scope : ∀ (name : String) id, a.scope[name]? = some id → id < a.procedure.values.size
  empty : ∀ b, block < b → a.procedure.code b = []

variable {a : Assembly} {block : BlockId}

/-- What is done up to a block is done up to the next one. -/
theorem Orderly.next (h : a.Orderly block) : a.Orderly (block + 1) :=
  { h with empty := fun b hb ↦ h.empty b (Nat.lt_of_succ_lt hb) }

/-- A name that is given to an allocated value may be in scope. -/
private theorem scope_insert {name : String} {id bound : Nat} (hid : id < bound)
    (h : ∀ (name : String) id, a.scope[name]? = some id → id < bound) (other : String)
    (found : ValueId) (hfound : (a.scope.insert name id)[other]? = some found) : found < bound := by
  rw [Std.ExtTreeMap.getElem?_insert] at hfound
  split at hfound
  · cases hfound
    exact hid
  · exact h other found hfound

/-- An operand is resolved to an allocated value. -/
theorem Orderly.resolve (h : a.Orderly block) (name : String) :
    (a.resolve name).1.Orderly block ∧
      (a.resolve name).2 < (a.resolve name).1.procedure.values.size := by
  unfold Assembly.resolve
  split
  · next id hid => exact ⟨h, h.scope name id hid⟩
  · have hsize : a.procedure.values.size <
        (a.procedure.addValue ⟨some name, none⟩).1.values.size := by
      simp [Procedure.addValue]
    refine ⟨⟨h.inOrder, fun inst hinst ↦ Nat.lt_trans (h.allocated inst hinst) hsize, ?_, h.empty⟩,
      hsize⟩
    exact scope_insert hsize fun other id hid ↦ Nat.lt_trans (h.scope other id hid) hsize

/-- Values stay allocated. -/
theorem size_values_resolveAll (a : Assembly) (names : List String) :
    a.procedure.values.size ≤ (a.resolveAll names).1.procedure.values.size :=
  resolveAll_keeps (P := fun p ↦ a.procedure.values.size ≤ p.values.size)
    (fun p v hp ↦ by simpa [Procedure.addValue] using Nat.le_succ_of_le hp) (Nat.le_refl _) names

/-- Operands are resolved to allocated values. -/
theorem Orderly.resolveAll (h : a.Orderly block) (names : List String) :
    (a.resolveAll names).1.Orderly block ∧
      ∀ id ∈ (a.resolveAll names).2, id < (a.resolveAll names).1.procedure.values.size := by
  induction names generalizing a with
  | nil => exact ⟨h, by simp [Assembly.resolveAll]⟩
  | cons name names ih =>
    obtain ⟨hresolved, hid⟩ := h.resolve name
    obtain ⟨hrest, hids⟩ := ih hresolved
    refine ⟨hrest, ?_⟩
    intro id hmem
    rcases List.mem_cons.mp hmem with rfl | hmem
    · exact Nat.lt_of_lt_of_le hid (size_values_resolveAll _ names)
    · exact hids id hmem

/-- Operands add no blocks. -/
theorem size_blocks_resolveAll (a : Assembly) (names : List String) :
    (a.resolveAll names).1.procedure.blocks.size = a.procedure.blocks.size :=
  resolveAll_keeps (P := fun p ↦ p.blocks.size = a.procedure.blocks.size) (fun _ _ hp ↦ hp) rfl
    names

/-- Instructions add no blocks. -/
@[simp]
theorem size_blocks_place (a : Assembly) (block : BlockId) (inst : InstructionDesc) :
    (a.place block inst).procedure.blocks.size = a.procedure.blocks.size := by
  rw [procedure_place, Procedure.size_blocks_append, size_blocks_resolveAll]

/-- An instruction that is placed in the last block with code is the last one of the scan. -/
theorem scanned_place {block : BlockId} (hblock : block < a.procedure.blocks.size)
    (inst : InstructionDesc)
    (h : ∀ b, block < b → (a.resolveAll inst.operands).1.procedure.code b = []) :
    (a.place block inst).procedure.scanned =
      (a.resolveAll inst.operands).1.procedure.scanned ++ [⟨Opcode.ofMnemonic inst.opcode,
        (a.resolveAll inst.operands).2, (a.resolveAll inst.operands).1.procedure.values.size⟩] := by
  rw [← a.size_blocks_resolveAll inst.operands] at hblock
  rw [procedure_place]
  exact Procedure.scanned_append _ hblock h _ _ _

/-- An instruction that is placed in the block at hand has the youngest result. -/
theorem Orderly.place (h : a.Orderly block) (hblock : block < a.procedure.blocks.size)
    (inst : InstructionDesc) : (a.place block inst).Orderly block := by
  obtain ⟨hresolved, hids⟩ := h.resolveAll inst.operands
  have hscanned := scanned_place hblock inst hresolved.empty
  rw [← a.size_blocks_resolveAll inst.operands] at hblock
  have hcode := Procedure.code_append _ hblock
    (Opcode.ofMnemonic inst.opcode) (a.resolveAll inst.operands).2 inst.name
  have hvalues : (a.place block inst).procedure.values.size =
      (a.resolveAll inst.operands).1.procedure.values.size + 1 := by
    rw [procedure_place]
    simp [Procedure.append, Procedure.addValue]
  rw [← procedure_place] at hcode
  constructor
  · rw [hscanned]
    exact hresolved.inOrder.concat hresolved.allocated hids
  · rw [hscanned, hvalues]
    intro x hx
    rcases List.mem_append.mp hx with hx | hx
    · exact Nat.lt_succ_of_lt (hresolved.allocated x hx)
    · rw [List.mem_singleton.mp hx]
      exact Nat.lt_succ_self _
  · rw [hvalues]
    have hscope : ∀ (name : String) id, (a.resolveAll inst.operands).1.scope[name]? = some id →
        id < (a.resolveAll inst.operands).1.procedure.values.size + 1 :=
      fun name id hid ↦ Nat.lt_succ_of_lt (hresolved.scope name id hid)
    unfold Assembly.place
    cases inst.name with
    | none => exact hscope
    | some name => exact scope_insert (Nat.lt_succ_self _) hscope
  · intro b hb
    rw [hcode, if_neg (Nat.ne_of_lt hb), hresolved.empty b hb]

/-- The instructions of a block are placed in order. -/
theorem Orderly.placeBlock (h : a.Orderly block) (hblock : block < a.procedure.blocks.size)
    (insts : List InstructionDesc) :
    (insts.foldl (Assembly.place block) a).Orderly block ∧
      (insts.foldl (Assembly.place block) a).procedure.blocks.size = a.procedure.blocks.size := by
  refine List.foldlRecOn insts (motive := fun a' : Assembly ↦ a'.Orderly block ∧
    a'.procedure.blocks.size = a.procedure.blocks.size) _ ⟨h, rfl⟩ ?_
  rintro a' ⟨h', hsize⟩ inst -
  refine ⟨h'.place ?_ inst, ?_⟩
  · rw [hsize]
    exact hblock
  · rw [size_blocks_place, hsize]

/-- Blocks that follow each other are placed in order. -/
theorem Orderly.placeBlocks {block : Nat} (h : a.Orderly block) (blocks : List BlockDesc)
    (hsize : block + blocks.length ≤ a.procedure.blocks.size) :
    InOrder ((blocks.zipIdx block).foldl (fun a (b, block) ↦
      b.instructions.foldl (Assembly.place block) a) a).procedure.scanned := by
  induction blocks generalizing a block with
  | nil => exact h.inOrder
  | cons b blocks ih =>
    have hlength : block + 1 + blocks.length ≤ a.procedure.blocks.size := by
      simpa [Nat.add_assoc, Nat.add_comm 1] using hsize
    have hblock : block < a.procedure.blocks.size := by omega
    obtain ⟨hplaced, hsame⟩ := h.placeBlock hblock b.instructions
    exact ih hplaced.next (hsame ▸ hlength)

end Assembly

namespace ProcedureDesc

variable (d : ProcedureDesc)

/-- Neither blocks nor edges bring any code. -/
theorem code_linkAll_allocate (b : BlockId) : (d.linkAll d.allocate).code b = [] := by
  have hallocate : d.allocate.code b = [] := by
    refine List.foldlRecOn d.blocks (motive := fun p : Procedure ↦ p.code b = []) _ rfl ?_
    intro p hp desc _
    simpa using hp
  refine List.foldlRecOn d.blocks.zipIdx (motive := fun p : Procedure ↦ p.code b = []) _ hallocate
    ?_
  rintro p hp ⟨desc, source⟩ -
  refine List.foldlRecOn desc.successors (motive := fun p : Procedure ↦ p.code b = []) _ hp ?_
  intro p hp successor _
  simpa using hp

/-- The code of an accepted description is in order. -/
theorem inOrder_of_toProcedure {d : ProcedureDesc} {p : Procedure} (h : d.toProcedure = .ok p) :
    InOrder p.scanned := by
  obtain ⟨hfault, rfl⟩ := toProcedure_eq_ok_iff.mp h
  have hcode := d.code_linkAll_allocate
  have hscanned : (d.linkAll d.allocate).scanned = [] := by
    simp [Procedure.scanned, Procedure.codeFrom, Procedure.codeOf, hcode]
  have hsize : (d.linkAll d.allocate).blocks.size = d.blocks.length :=
    (linkAll_keeps (P := fun _ ↦ True) (fun _ _ _ _ ↦ trivial) hfault trivial d.size_allocate).2
  have hstart : ({ procedure := d.linkAll d.allocate } : Assembly).Orderly 0 := by
    refine ⟨?_, ?_, ?_, fun b _ ↦ hcode b⟩
    · rw [hscanned]
      exact .nil
    · simp [hscanned]
    · simp
  exact hstart.placeBlocks d.blocks (by simp [hsize])

end ProcedureDesc

end BlockFlow
