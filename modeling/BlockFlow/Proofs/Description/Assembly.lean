import BlockFlow.Proofs.Description.Faults
import BlockFlow.Proofs.Procedure.Builder

/-!
# Assembling is building

From a description whose edges all name blocks, a procedure is assembled by calls to a builder that
all succeed: every block that an edge or an instruction needs has been allocated by then. What calls
keep therefore holds of every assembled procedure; in particular it is coherent.
-/

namespace BlockFlow

open Procedure (Built)

/-! ### Accepted descriptions -/

namespace ProcedureDesc

/-- A description is assembled exactly if it has no fault. -/
theorem toProcedure_eq_ok_iff {d : ProcedureDesc} {p : Procedure} :
    d.toProcedure = .ok p ↔ d.fault? = none ∧ d.assemble = p := by
  unfold toProcedure
  cases d.fault? <;> simp

/-- The position of the block of a name is that of a block. -/
theorem position_lt {d : ProcedureDesc} {name : String} (h : name ∈ d.blockNames) :
    d.position name < d.blocks.length := by
  have hlt := List.idxOf_lt_length_of_mem h
  simpa only [position, blockNames, List.length_map] using hlt

end ProcedureDesc

/-! ### Calls -/

/-- What new values keep survives the resolution of an operand. -/
theorem Assembly.resolve_keeps {P : Procedure → Prop}
    (hvalue : ∀ p name, P p → P (p.addValue { name, definedBy := none }).1) {a : Assembly}
    (ha : P a.procedure) (name : String) : P (a.resolve name).1.procedure := by
  unfold resolve
  split
  · exact ha
  · exact hvalue _ _ ha

theorem Assembly.resolveAll_keeps {P : Procedure → Prop}
    (hvalue : ∀ p name, P p → P (p.addValue { name, definedBy := none }).1) {a : Assembly}
    (ha : P a.procedure) (names : List String) : P (a.resolveAll names).1.procedure := by
  induction names generalizing a with
  | nil => exact ha
  | cons name names ih => exact ih (resolve_keeps hvalue ha name)

/-- Placing an instruction resolves its operands and appends it. -/
theorem Assembly.procedure_place (block : BlockId) (a : Assembly) (inst : InstructionDesc) :
    (a.place block inst).procedure =
      ((a.resolveAll inst.operands).1.procedure.append block (Opcode.ofMnemonic inst.opcode)
        (a.resolveAll inst.operands).2 inst.name).1 := by
  unfold place
  cases inst.name <;> rfl

namespace ProcedureDesc

variable {P : Procedure → Prop} (hstep : ∀ p p', P p → Built p p' → P p') (d : ProcedureDesc)

private theorem foldl_addBlock_size (blocks : List BlockDesc) (p : Procedure) :
    (blocks.foldl (fun p b ↦ (p.addBlock b.name).1) p).blocks.size =
      p.blocks.size + blocks.length := by
  induction blocks generalizing p with
  | nil => rfl
  | cons b blocks ih =>
    rw [List.foldl_cons, ih, Procedure.size_blocks_addBlock, List.length_cons]
    omega

/-- Every described block is allocated. -/
theorem size_allocate : d.allocate.blocks.size = d.blocks.length := by
  rw [allocate, foldl_addBlock_size]
  simp [Procedure.empty]

include hstep

/-- What calls keep holds once the blocks are allocated. -/
theorem allocate_keeps (hempty : P (.empty d.name)) : P d.allocate := by
  refine List.foldlRecOn d.blocks _ hempty ?_
  intro p hp b _
  exact hstep _ _ hp (.block b.name)

variable {d}

/-- What calls keep survives entering the edges, and no block is added. -/
theorem linkAll_keeps (h : d.fault? = none) {p : Procedure} (hp : P p)
    (hsize : p.blocks.size = d.blocks.length) :
    P (d.linkAll p) ∧ (d.linkAll p).blocks.size = d.blocks.length := by
  refine List.foldlRecOn d.blocks.zipIdx
    (motive := fun p ↦ P p ∧ p.blocks.size = d.blocks.length) _ ⟨hp, hsize⟩ ?_
  rintro p hp ⟨b, source⟩ hmem
  have hsource : source < d.blocks.length := by simpa using List.snd_lt_of_mem_zipIdx hmem
  refine List.foldlRecOn b.successors
    (motive := fun p ↦ P p ∧ p.blocks.size = d.blocks.length) _ hp ?_
  rintro p ⟨hp, hsize⟩ successor hs
  have hname := (fault?_eq_none_iff.mp h).successors b (List.fst_mem_of_mem_zipIdx hmem) _ hs
  have htarget : d.position successor < p.blocks.size := hsize ▸ position_lt hname
  exact ⟨hstep _ _ hp (.edge _ _ (hsize ▸ hsource) (.inr htarget)), by simpa using hsize⟩

omit hstep in
/-- What new values and appended instructions keep survives placing the instructions. -/
theorem placeAll_induction
    (hvalue : ∀ p name, P p → P (p.addValue { name, definedBy := none }).1)
    (happend : ∀ p block opcode operands name, block < d.blocks.length → P p →
      P (p.append block opcode operands name).1)
    {a : Assembly} (ha : P a.procedure) : P (d.placeAll a).procedure := by
  refine List.foldlRecOn d.blocks.zipIdx (motive := fun a : Assembly ↦ P a.procedure) _ ha ?_
  rintro a ha ⟨b, block⟩ hmem
  have hblock : block < d.blocks.length := by simpa using List.snd_lt_of_mem_zipIdx hmem
  refine List.foldlRecOn b.instructions (motive := fun a : Assembly ↦ P a.procedure) _ ha ?_
  intro a ha inst _
  rw [Assembly.procedure_place]
  exact happend _ _ _ _ _ hblock (Assembly.resolveAll_keeps hvalue ha inst.operands)

/-- What calls keep survives placing the instructions. -/
theorem placeAll_keeps {a : Assembly} (ha : P a.procedure)
    (hsize : a.procedure.blocks.size = d.blocks.length) : P (d.placeAll a).procedure := by
  have hkept : P (d.placeAll a).procedure ∧
      (d.placeAll a).procedure.blocks.size = d.blocks.length := by
    apply placeAll_induction (P := fun p ↦ P p ∧ p.blocks.size = d.blocks.length)
    · intro p name hp
      exact ⟨hstep _ _ hp.1 (.value name), hp.2⟩
    · intro p block opcode operands name hblock hp
      rw [← hp.2] at hblock
      exact ⟨hstep _ _ hp.1 (.instruction _ _ _ _ hblock), by simpa using hp.2⟩
    · exact ⟨ha, hsize⟩
  exact hkept.1

/-- What the empty procedure has and calls keep holds of every assembled procedure. -/
theorem assemble_keeps (h : d.fault? = none) (hempty : P (.empty d.name)) : P d.assemble := by
  have hlinked := linkAll_keeps hstep h (allocate_keeps hstep d hempty) d.size_allocate
  exact placeAll_keeps hstep hlinked.1 hlinked.2

end ProcedureDesc

/-- An accepted description gives a coherent procedure. -/
theorem ProcedureDesc.coherent_of_toProcedure {d : ProcedureDesc} {p : Procedure}
    (h : d.toProcedure = .ok p) : p.Coherent := by
  obtain ⟨hfault, rfl⟩ := toProcedure_eq_ok_iff.mp h
  exact assemble_keeps (fun p p' hp hbuilt ↦ hp.built hbuilt) hfault
    (Procedure.coherent_empty d.name)

/-- The procedures of an accepted module are coherent. -/
theorem ModuleDesc.coherent_of_toProcedures {m : ModuleDesc} {procedures : List Procedure}
    (h : m.toProcedures = .ok procedures) : ∀ p ∈ procedures, p.Coherent := by
  intro p hp
  obtain ⟨d, -, hd⟩ := exists_mem_of_mapM h hp
  exact ProcedureDesc.coherent_of_toProcedure hd

end BlockFlow
