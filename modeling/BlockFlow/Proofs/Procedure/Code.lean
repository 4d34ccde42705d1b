import BlockFlow.Procedure.Effect
import BlockFlow.Proofs.Procedure.Builder
import Mathlib.Data.List.Flatten
import Mathlib.Data.List.Sort

/-!
# The code of a procedure

The instructions of a procedure as lists: those of one block, those of several blocks, and those
that a scan of some blocks meets on its way to an instruction. A procedure can be cut down to some
of its blocks; as long as these are in block order, what is left is a part of the code. Code is in
order if its results are in ascending order and every operand is allocated before the result.
-/

namespace BlockFlow

namespace Procedure

/-- The instructions of the block at a position; none for an unknown one. -/
def code (p : Procedure) (b : BlockId) : List Instruction :=
  ((p.block? b).map (·.instructions.toList)).getD []

/-- The instructions of some blocks, one block after the other. -/
def codeOf (p : Procedure) (blocks : List BlockId) : List Instruction := blocks.flatMap p.code

/-- The instructions of so many blocks, from the given one on. -/
def codeFrom (p : Procedure) (first : BlockId) (count : Nat) : List Instruction :=
  p.codeOf (List.range' first count)

/-- The instructions of all blocks, in block order. -/
def scanned (p : Procedure) : List Instruction := p.codeFrom 0 p.blocks.size

/-- What a scan of some blocks and then of block `b` meets before position `i` of block `b`. -/
def way (p : Procedure) (before : List BlockId) (b : BlockId) (i : Nat) : List Instruction :=
  p.codeOf before ++ (p.code b).take i

/-- The procedure with some of its blocks. -/
def only (p : Procedure) (blocks : List BlockId) : Procedure :=
  { p with blocks := (blocks.filterMap p.block?).toArray }

variable (p : Procedure)

theorem codeOf_append (blocks more : List BlockId) :
    p.codeOf (blocks ++ more) = p.codeOf blocks ++ p.codeOf more :=
  List.flatMap_append

theorem codeFrom_append (first : BlockId) (count more : Nat) :
    p.codeFrom first count ++ p.codeFrom (first + count) more =
      p.codeFrom first (count + more) := by
  rw [codeFrom, codeFrom, ← codeOf_append, List.range'_append_1]
  rfl

theorem codeFrom_succ (first : BlockId) (count : Nat) :
    p.codeFrom first (count + 1) = p.code first ++ p.codeFrom (first + 1) count := by
  rw [codeFrom, List.range'_succ, codeOf, List.flatMap_cons]
  rfl

/-- The instruction at a position of a block is that of its code. -/
theorem getElem?_code (b : BlockId) (i : Nat) : (p.code b)[i]? = p.instruction? b i := by
  unfold code instruction?
  cases p.block? b <;> simp

/-- An instruction parts the code of its block. -/
theorem code_eq_of_instruction? {b : BlockId} {i : Nat} {inst : Instruction}
    (h : p.instruction? b i = some inst) :
    p.code b = (p.code b).take i ++ inst :: (p.code b).drop (i + 1) := by
  rw [← p.getElem?_code] at h
  obtain ⟨hi, rfl⟩ := List.getElem?_eq_some_iff.mp h
  rw [← List.drop_eq_getElem_cons hi, List.take_append_drop]

/-- A scan meets the instructions of one block after the other. -/
theorem scanned_eq_flatMap : p.scanned = p.blocks.toList.flatMap (·.instructions.toList) := by
  have hblocks : p.blocks.toList.map (·.instructions.toList) =
      (List.range' 0 p.blocks.size).map p.code := by
    apply List.ext_getElem
    · simp
    · intro i hi hi'
      have hsize : i < p.blocks.size := by simpa using hi
      simp [code, block?, hsize]
  rw [scanned, codeFrom, codeOf, List.flatMap_def, List.flatMap_def, hblocks]

/-- The sites of a procedure are those of its code. -/
theorem map_instruction_sites : p.sites.map Site.instruction = p.scanned := by
  rw [scanned_eq_flatMap]
  simp [sites, BasicBlock.sites, List.map_flatMap, Function.comp_def]

/-! ### Some of the blocks -/

/-- A scan of some blocks meets their instructions. -/
theorem scanned_only (blocks : List BlockId) : (p.only blocks).scanned = p.codeOf blocks := by
  rw [scanned_eq_flatMap, only, codeOf]
  induction blocks with
  | nil => rfl
  | cons b blocks ih =>
    rw [List.flatMap_cons, ← ih, code]
    cases hb : p.block? b with
    | none => simp [List.filterMap_cons_none hb]
    | some block => simp [List.filterMap_cons_some hb]

/-- The code of blocks that are in block order is a part of the whole code. -/
theorem codeOf_sublist {blocks : List BlockId} (h : blocks.Pairwise (· < ·)) :
    (p.codeOf blocks).Sublist p.scanned := by
  -- blocks that are not there have no code
  have hknown : p.codeOf blocks = p.codeOf (blocks.filter (· < p.blocks.size)) := by
    clear h
    induction blocks with
    | nil => rfl
    | cons b blocks ih =>
      by_cases hb : b < p.blocks.size
      · rw [List.filter_cons_of_pos (by simpa using hb), codeOf, List.flatMap_cons]
        exact congrArg _ ih
      · have hnone : p.block? b = none := Array.getElem?_eq_none (Nat.le_of_not_lt hb)
        rw [List.filter_cons_of_neg (by simpa using hb), ← ih, codeOf, List.flatMap_cons, code,
          hnone]
        rfl
  have hascending := h.filter (· < p.blocks.size)
  have hsub : (blocks.filter (· < p.blocks.size)).Sublist (List.range' 0 p.blocks.size) := by
    refine List.sublist_of_subperm_of_pairwise ?_ hascending (List.pairwise_lt_range' ..)
    refine List.subperm_of_subset (hascending.imp Nat.ne_of_lt) ?_
    intro b hb
    simpa [List.mem_range'_1] using (List.mem_filter.mp hb).2
  rw [hknown]
  exact hsub.flatMap p.code

/-- A scan of some blocks and then of the block of an instruction meets the way to the instruction,
the instruction, and the rest. -/
theorem exists_codeOf_eq (before : List BlockId) {b : BlockId} {i : Nat} {inst : Instruction}
    (h : p.instruction? b i = some inst) (behind : List BlockId) :
    ∃ post, p.codeOf (before ++ b :: behind) = p.way before b i ++ inst :: post := by
  refine ⟨(p.code b).drop (i + 1) ++ p.codeOf behind, ?_⟩
  rw [codeOf_append, way, List.append_assoc]
  congr 1
  have hcode := p.code_eq_of_instruction? h
  rw [codeOf, List.flatMap_cons]
  nth_rewrite 1 [hcode]
  simp [codeOf]

/-- A scan meets all blocks in front of an instruction, and the instruction. -/
theorem exists_scanned_eq {b : BlockId} {i : Nat} {inst : Instruction}
    (h : p.instruction? b i = some inst) :
    ∃ post, p.scanned = p.way (List.range b) b i ++ inst :: post := by
  have hb : b < p.blocks.size := by
    by_contra hge
    have hnone : p.block? b = none := Array.getElem?_eq_none (Nat.le_of_not_lt hge)
    simp [instruction?, hnone] at h
  obtain ⟨rest, hrest⟩ := Nat.exists_eq_add_of_lt hb
  have hblocks : List.range' 0 p.blocks.size = List.range b ++ b :: List.range' (b + 1) rest := by
    rw [hrest, Nat.add_assoc, ← List.range'_append_1, List.range_eq_range', Nat.zero_add,
      List.range'_succ]
  rw [scanned, codeFrom, hblocks]
  exact p.exists_codeOf_eq (List.range b) h _

/-- The way over all blocks leads over those in front of some block first. -/
theorem way_range_eq {first b : Nat} (hfirst : first ≤ b) (i : Nat) :
    p.way (List.range b) b i =
      p.codeOf (List.range first) ++ p.way (List.range' first (b - first)) b i := by
  have hblocks := List.range'_append_1 (s := 0) (m := first) (n := b - first)
  rw [Nat.zero_add, Nat.add_sub_cancel' hfirst] at hblocks
  rw [way, way, List.range_eq_range', List.range_eq_range', ← hblocks, codeOf_append,
    List.append_assoc]

/-- A scan meets the instructions of the blocks and no others. -/
theorem mem_scanned {inst : Instruction} :
    inst ∈ p.scanned ↔ ∃ b i, p.instruction? b i = some inst := by
  constructor
  · intro h
    obtain ⟨b, -, hcode⟩ := List.mem_flatMap.mp h
    obtain ⟨i, hi⟩ := List.mem_iff_getElem?.mp hcode
    exact ⟨b, i, (p.getElem?_code b i).symm.trans hi⟩
  · rintro ⟨b, i, h⟩
    obtain ⟨post, hscanned⟩ := p.exists_scanned_eq h
    simp [hscanned]

/-! ### Calls to a builder -/

@[simp]
theorem code_addBlock (name : String) (b : BlockId) :
    (p.addBlock name).1.code b = p.code b := by
  rw [code, code, block?_addBlock]
  split
  · next hb => simp [block?, hb]
  · rfl

@[simp]
theorem code_link (source target b : BlockId) : (p.link source target).code b = p.code b := by
  by_cases h : target ∈ p.successors source
  · rw [link, if_pos h]
  · rw [code, code, block?_link h]
    cases p.block? b <;> rfl

/-- An instruction is appended to the code of its block. -/
theorem code_append {block : BlockId} (hblock : block < p.blocks.size) (opcode : Opcode)
    (operands : List ValueId) (name : Option String) (b : BlockId) :
    (p.append block opcode operands name).1.code b =
      if block = b then p.code b ++ [⟨opcode, operands, p.values.size⟩] else p.code b := by
  rw [code, code, block?_append]
  split
  · next hb =>
    subst hb
    have hsome : p.block? block = some p.blocks[block] := Array.getElem?_eq_getElem hblock
    simp [hsome]
  · rfl

/-- Where all blocks behind one are empty, the code ends with that block. -/
theorem scanned_eq_of_empty {block : Nat} (hblock : block < p.blocks.size)
    (h : ∀ b, block < b → p.code b = []) : p.scanned = p.codeFrom 0 block ++ p.code block := by
  have hrest : p.codeFrom (block + 1) (p.blocks.size - block - 1) = [] := by
    rw [codeFrom, codeOf, List.flatMap_eq_nil_iff]
    intro b hb
    exact h b (List.mem_range'_1.mp hb).1
  have hcount : p.blocks.size = block + (p.blocks.size - block - 1 + 1) := by omega
  rw [scanned, hcount, ← p.codeFrom_append, Nat.zero_add, p.codeFrom_succ, hrest, List.append_nil]

/-- An instruction that is appended to the last block with code is the last one of the scan. -/
theorem scanned_append {block : BlockId} (hblock : block < p.blocks.size)
    (h : ∀ b, block < b → p.code b = []) (opcode : Opcode) (operands : List ValueId)
    (name : Option String) :
    (p.append block opcode operands name).1.scanned =
      p.scanned ++ [⟨opcode, operands, p.values.size⟩] := by
  have hcode := p.code_append hblock opcode operands name
  have hfront : (p.append block opcode operands name).1.codeFrom 0 block =
      p.codeFrom 0 block := by
    refine List.flatMap_congr fun b hb ↦ ?_
    have hlt : b < block := by simpa using (List.mem_range'_1.mp hb).2
    rw [hcode, if_neg (Nat.ne_of_gt hlt)]
  rw [scanned_eq_of_empty _ (by simpa using hblock), p.scanned_eq_of_empty hblock h, hfront, hcode,
    if_pos rfl, List.append_assoc]
  intro b hb
  rw [hcode, if_neg (Nat.ne_of_lt hb), h b hb]

end Procedure

/-! ### Order -/

/-- Results ascend, and the operands of an instruction are older than its result. -/
structure InOrder (code : List Instruction) : Prop where
  ascending : code.Pairwise fun x y ↦ x.result < y.result
  operands : ∀ inst ∈ code, ∀ v ∈ inst.operands, v < inst.result

namespace InOrder

variable {code pre post : List Instruction} {inst : Instruction}

theorem nil : InOrder [] := ⟨.nil, by simp⟩

/-- An instruction whose result is new may follow. -/
theorem concat (h : InOrder code) (hresult : ∀ x ∈ code, x.result < inst.result)
    (hoperands : ∀ v ∈ inst.operands, v < inst.result) : InOrder (code ++ [inst]) := by
  constructor
  · rw [List.pairwise_append]
    exact ⟨h.ascending, List.pairwise_singleton _ _, by simpa using hresult⟩
  · intro x hx
    rcases List.mem_append.mp hx with hx | hx
    · exact h.operands x hx
    · rw [List.mem_singleton.mp hx]
      exact hoperands

/-- Code that is in order stays so when some of it is left out. -/
theorem sublist (h : InOrder code) (hsub : pre.Sublist code) : InOrder pre :=
  ⟨h.ascending.sublist hsub, fun x hx ↦ h.operands x (hsub.subset hx)⟩

/-- In code that is in order an instruction is found by its result. -/
theorem eq_of_result {pre' post' : List Instruction} {inst' : Instruction}
    (h : InOrder (pre ++ inst :: post)) (heq : pre ++ inst :: post = pre' ++ inst' :: post')
    (hresult : inst.result = inst'.result) : pre = pre' ∧ inst = inst' := by
  have hnodup : ((pre ++ inst :: post).map Instruction.result).Nodup := by
    rw [List.Nodup, List.pairwise_map]
    exact h.ascending.imp Nat.ne_of_lt
  have hfirst : ((pre ++ inst :: post).map Instruction.result)[pre.length]? = some inst.result := by
    simp
  have hsecond :
      ((pre ++ inst :: post).map Instruction.result)[pre'.length]? = some inst.result := by
    simp [heq, hresult]
  have hlength : pre.length = pre'.length :=
    (List.getElem?_inj (by simp) hnodup).mp (hfirst.trans hsecond.symm)
  have hparts := List.append_inj heq hlength
  exact ⟨hparts.1, (List.cons.inj hparts.2).1⟩

end InOrder

end BlockFlow
