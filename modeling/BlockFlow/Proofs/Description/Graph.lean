import BlockFlow.Proofs.Description.Order
import BlockFlow.Proofs.Procedure.Definitions
import Mathlib.Data.List.Induction
import Mathlib.Data.List.Sort

/-!
# The described graph

Edges and instructions are entered block by block, in the order in which the blocks list them. An
edge that has been entered is left alone, so the successors of a block are the blocks that it names,
in the order of their first mention; and since the sources of edges ascend, so do the predecessors
of a block. Main statement: the assembled procedure has the described blocks, with the described
instructions in them and the described edges between them.
-/

namespace BlockFlow

/-! ### What blocks list -/

section Entries

variable {α : Type}

/-- The entries of a block, in order. -/
def entriesOf (entries : List (BlockId × α)) (b : BlockId) : List α :=
  entries.filterMap fun e ↦ if e.1 = b then some e.2 else none

theorem entriesOf_append (entries more : List (BlockId × α)) (b : BlockId) :
    entriesOf (entries ++ more) b = entriesOf entries b ++ entriesOf more b :=
  List.filterMap_append

/-- A last entry is the last one of its block. -/
theorem entriesOf_concat (entries : List (BlockId × α)) (e : BlockId × α) (b : BlockId) :
    entriesOf (entries ++ [e]) b = entriesOf entries b ++ if e.1 = b then [e.2] else [] := by
  rw [entriesOf_append]
  by_cases hb : e.1 = b <;> simp [entriesOf, hb]

theorem mem_entriesOf {entries : List (BlockId × α)} {b : BlockId} {x : α} :
    x ∈ entriesOf entries b ↔ (b, x) ∈ entries := by
  simp [entriesOf, List.mem_filterMap]

/-- A block that is not mentioned has no entries. -/
theorem entriesOf_eq_nil {entries : List (BlockId × α)} {b : BlockId}
    (h : ∀ e ∈ entries, e.1 ≠ b) : entriesOf entries b = [] := by
  rw [entriesOf, List.filterMap_eq_nil_iff]
  intro e he
  exact if_neg (h e he)

namespace ProcedureDesc

variable (d : ProcedureDesc) (listed : BlockDesc → List α)

/-- What the described blocks list, each entry with the position of its block. -/
def entries : List (BlockId × α) := d.blocks.zipIdx.flatMap fun e ↦ (listed e.1).map (e.2, ·)

private theorem entriesOf_zipIdx (blocks : List BlockDesc) (first i : Nat) :
    entriesOf ((blocks.zipIdx first).flatMap fun e ↦ (listed e.1).map (e.2, ·)) (first + i) =
      (blocks[i]?.map listed).getD [] := by
  induction blocks generalizing first i with
  | nil => simp [entriesOf]
  | cons b blocks ih =>
    rw [List.zipIdx_cons, List.flatMap_cons, entriesOf_append]
    cases i with
    | zero =>
      have hrest : entriesOf ((blocks.zipIdx (first + 1)).flatMap fun e ↦
          (listed e.1).map (e.2, ·)) (first + 0) = [] := by
        apply entriesOf_eq_nil
        intro e he
        obtain ⟨c, hc, he⟩ := List.mem_flatMap.mp he
        obtain ⟨x, -, rfl⟩ := List.mem_map.mp he
        have hle := List.le_snd_of_mem_zipIdx hc
        change c.2 ≠ first + 0
        omega
      rw [hrest]
      simp [entriesOf, List.filterMap_map]
    | succ i =>
      have hnext := ih (first + 1) i
      rw [Nat.add_assoc, Nat.add_comm 1 i] at hnext
      rw [hnext]
      simp [entriesOf, List.filterMap_map]

/-- The entries of a block are what it lists. -/
theorem entriesOf_entries (i : BlockId) :
    entriesOf (d.entries listed) i = (d.blocks[i]?.map listed).getD [] := by
  have h := entriesOf_zipIdx listed d.blocks 0 i
  rwa [Nat.zero_add] at h

/-- Blocks come in order. -/
theorem blocks_ascending : d.blocks.zipIdx.Pairwise fun e e' ↦ e.2 < e'.2 := by
  rw [← List.pairwise_map, List.zipIdx_map_snd]
  exact List.pairwise_lt_range'

/-- Entries come in the order of their blocks. -/
theorem entries_ascending : (d.entries listed).Pairwise fun e e' ↦ e.1 ≤ e'.1 := by
  rw [entries, List.pairwise_flatMap]
  constructor
  · intro e _
    rw [List.pairwise_map]
    exact List.pairwise_of_forall fun _ _ ↦ Nat.le_refl e.2
  · apply d.blocks_ascending.imp
    intro e e' hlt x hx y hy
    obtain ⟨_, -, rfl⟩ := List.mem_map.mp hx
    obtain ⟨_, -, rfl⟩ := List.mem_map.mp hy
    exact Nat.le_of_lt hlt

theorem mem_entries {i : BlockId} {x : α} :
    (i, x) ∈ d.entries listed ↔ ∃ b, d.blocks[i]? = some b ∧ x ∈ listed b := by
  rw [← mem_entriesOf, entriesOf_entries]
  cases d.blocks[i]? <;> simp

/-- Every entry is that of a block. -/
theorem fst_lt_of_mem_entries {e : BlockId × α} (he : e ∈ d.entries listed) :
    e.1 < d.blocks.length := by
  obtain ⟨b, hb, -⟩ := (d.mem_entries listed).mp he
  exact (List.getElem?_eq_some_iff.mp hb).1

end ProcedureDesc

end Entries

/-! ### Edges -/

private theorem eraseDups_concat (names : List String) (name : String) :
    (names ++ [name]).eraseDups =
      if name ∈ names then names.eraseDups else names.eraseDups ++ [name] := by
  rw [List.eraseDups_append]
  by_cases h : name ∈ names <;> simp [List.removeAll, h, List.eraseDups_cons]

namespace ProcedureDesc

variable {d : ProcedureDesc}

/-- Different blocks have different positions. -/
theorem position_eq_iff {name other : String} (h : name ∈ d.blockNames) :
    d.position name = d.position other ↔ name = other :=
  List.idxOf_inj h

/-- Enters edges one after the other. -/
def linkEach (d : ProcedureDesc) (p : Procedure) (edges : List (BlockId × String)) : Procedure :=
  edges.foldl (fun p e ↦ p.link e.1 (d.position e.2)) p

/-- The described edges are entered in the order in which blocks list them. -/
theorem linkAll_eq (p : Procedure) :
    d.linkAll p = d.linkEach p (d.entries BlockDesc.successors) := by
  rw [linkEach, entries, List.foldl_flatMap]
  simp only [List.foldl_map]
  rfl

/-- What edges keep survives entering some. -/
theorem linkEach_keeps {P : Procedure → Prop} (hlink : ∀ p source target, P p →
    P (p.link source target)) {p : Procedure} (hp : P p) (edges : List (BlockId × String)) :
    P (d.linkEach p edges) :=
  List.foldlRecOn edges _ hp fun p hp e _ ↦ hlink p e.1 (d.position e.2) hp

@[simp]
theorem size_blocks_linkEach (p : Procedure) (edges : List (BlockId × String)) :
    (d.linkEach p edges).blocks.size = p.blocks.size :=
  linkEach_keeps (P := fun q ↦ q.blocks.size = p.blocks.size)
    (fun q source target hq ↦ by rw [Procedure.size_blocks_link, hq]) rfl edges

/-- The edge leads from a block to a described one. -/
def Linkable (d : ProcedureDesc) (p : Procedure) (e : BlockId × String) : Prop :=
  e.1 < p.blocks.size ∧ e.2 ∈ d.blockNames

/-- Successors are the blocks that are named, in the order of their first mention. -/
theorem successors_linkEach {p : Procedure} (hp : ∀ b, p.successors b = [])
    (edges : List (BlockId × String)) (hedges : ∀ e ∈ edges, d.Linkable p e) :
    ∀ b, (d.linkEach p edges).successors b = (entriesOf edges b).eraseDups.map d.position := by
  induction edges using List.reverseRecOn with
  | nil => simpa [linkEach, entriesOf] using hp
  | append_singleton edges e ih =>
    intro b
    have hq := ih fun e' he' ↦ hedges e' (List.mem_append_left _ he')
    obtain ⟨hsource, hname⟩ := hedges e (by simp)
    have hlast : d.linkEach p (edges ++ [e]) =
        (d.linkEach p edges).link e.1 (d.position e.2) := by
      rw [linkEach, List.foldl_append]
      rfl
    have hmem : d.position e.2 ∈ (d.linkEach p edges).successors e.1 ↔
        e.2 ∈ entriesOf edges e.1 := by
      rw [hq, List.mem_map]
      simp only [@eq_comm _ _ (d.position e.2), position_eq_iff hname, exists_eq_right',
        List.mem_eraseDups]
    rw [hlast, entriesOf_concat]
    by_cases hold : e.2 ∈ entriesOf edges e.1
    · rw [Procedure.link, if_pos (hmem.mpr hold), hq]
      by_cases hb : e.1 = b
      · subst hb
        rw [if_pos rfl, eraseDups_concat, if_pos hold]
      · rw [if_neg hb, List.append_nil]
    · rw [Procedure.successors_link (by simpa using hsource) (mt hmem.mp hold), hq]
      by_cases hb : e.1 = b
      · subst hb
        rw [if_pos rfl, if_pos rfl, eraseDups_concat, if_neg hold, List.map_append]
        rfl
      · rw [if_neg hb, if_neg hb, List.append_nil]

/-- Where the sources of edges ascend, so do predecessors. -/
theorem predecessors_linkEach {p : Procedure} (edges : List (BlockId × String))
    (hedges : ∀ e ∈ edges, d.position e.2 < p.blocks.size)
    (hp : ∀ b, (p.predecessors b ++ edges.map Prod.fst).Pairwise (· ≤ ·)) :
    ∀ b, ((d.linkEach p edges).predecessors b).Pairwise (· ≤ ·) := by
  induction edges generalizing p with
  | nil => simpa [linkEach] using hp
  | cons e edges ih =>
    change ∀ b, ((d.linkEach (p.link e.1 (d.position e.2)) edges).predecessors b).Pairwise (· ≤ ·)
    apply ih
    · intro e' he'
      rw [Procedure.size_blocks_link]
      exact hedges e' (List.mem_cons_of_mem _ he')
    · intro b
      have hskip : (p.predecessors b ++ edges.map Prod.fst).Pairwise (· ≤ ·) := by
        apply List.Pairwise.sublist _ (hp b)
        simp
      by_cases hmem : d.position e.2 ∈ p.successors e.1
      · rw [Procedure.link, if_pos hmem]
        exact hskip
      · rw [Procedure.predecessors_link (hedges e List.mem_cons_self) hmem]
        by_cases hb : d.position e.2 = b
        · rw [if_pos hb, List.append_assoc]
          exact hp b
        · rw [if_neg hb]
          exact hskip

end ProcedureDesc

/-! ### Instructions -/

/-- What an instruction does and to how many operands. -/
def Instruction.shape (inst : Instruction) : Opcode × Nat := (inst.opcode, inst.operands.length)

/-- What a described instruction does and to how many operands. -/
def InstructionDesc.shape (inst : InstructionDesc) : Opcode × Nat :=
  (.ofMnemonic inst.opcode, inst.operands.length)

namespace Assembly

variable (a : Assembly)

/-- Every operand is resolved. -/
theorem length_resolveAll (names : List String) : (a.resolveAll names).2.length = names.length := by
  induction names generalizing a with
  | nil => rfl
  | cons name names ih => exact congrArg (· + 1) (ih _)

/-- Operands bring no code. -/
theorem code_resolveAll (names : List String) (b : BlockId) :
    (a.resolveAll names).1.procedure.code b = a.procedure.code b :=
  resolveAll_keeps (P := fun p ↦ p.code b = a.procedure.code b) (fun _ _ hp ↦ hp) rfl names

/-- Places instructions one after the other. -/
def placeEach (placed : List (BlockId × InstructionDesc)) : Assembly :=
  placed.foldl (fun a e ↦ a.place e.1 e.2) a

theorem placeEach_concat (placed : List (BlockId × InstructionDesc))
    (e : BlockId × InstructionDesc) :
    a.placeEach (placed ++ [e]) = (a.placeEach placed).place e.1 e.2 := by
  rw [placeEach, List.foldl_append]
  rfl

@[simp]
theorem size_blocks_placeEach (placed : List (BlockId × InstructionDesc)) :
    (a.placeEach placed).procedure.blocks.size = a.procedure.blocks.size :=
  List.foldlRecOn placed (motive := fun a' : Assembly ↦
    a'.procedure.blocks.size = a.procedure.blocks.size) _ rfl
    fun a' ha' e _ ↦ by rw [size_blocks_place, ha']

/-- The described instructions are placed in the order in which blocks list them. -/
theorem placeAll_eq (d : ProcedureDesc) :
    d.placeAll a = a.placeEach (d.entries BlockDesc.instructions) := by
  rw [placeEach, ProcedureDesc.entries, List.foldl_flatMap]
  simp only [List.foldl_map]
  rfl

/-- The code of a block has the shape of the instructions that were placed in it. -/
theorem shape_placeEach (ha : ∀ b, a.procedure.code b = [])
    (placed : List (BlockId × InstructionDesc))
    (hplaced : ∀ e ∈ placed, e.1 < a.procedure.blocks.size) (b : BlockId) :
    ((a.placeEach placed).procedure.code b).map Instruction.shape =
      (entriesOf placed b).map InstructionDesc.shape := by
  induction placed using List.reverseRecOn with
  | nil => simp [placeEach, entriesOf, ha]
  | append_singleton placed e ih =>
    have hfront := ih fun e' he' ↦ hplaced e' (List.mem_append_left _ he')
    have hblock : e.1 < ((a.placeEach placed).resolveAll e.2.operands).1.procedure.blocks.size := by
      rw [size_blocks_resolveAll, size_blocks_placeEach]
      exact hplaced e (by simp)
    rw [placeEach_concat, procedure_place, Procedure.code_append _ hblock, code_resolveAll,
      entriesOf_concat]
    by_cases hb : e.1 = b
    · rw [if_pos hb, if_pos hb, List.map_append, List.map_append, hfront]
      simp [Instruction.shape, InstructionDesc.shape, length_resolveAll]
    · rw [if_neg hb, if_neg hb, List.append_nil, hfront]

end Assembly

/-! ### The whole procedure -/

namespace Procedure

/-- The names of the blocks, in order. -/
def blockNames (p : Procedure) : List String := p.blocks.toList.map BasicBlock.name

variable {p q : Procedure}

/-- The name and the blocks are those of another procedure; code and edges may differ. -/
structure SameBlocks (p q : Procedure) : Prop where
  name : q.name = p.name
  blocks : ∀ b, (q.block? b).map BasicBlock.name = (p.block? b).map BasicBlock.name

theorem SameBlocks.blockNames_eq (h : p.SameBlocks q) : q.blockNames = p.blockNames := by
  apply List.ext_getElem?
  intro i
  simpa [blockNames, block?] using h.blocks i

/-- Edges change no block. -/
theorem SameBlocks.link (h : p.SameBlocks q) (source target : BlockId) :
    p.SameBlocks (q.link source target) := by
  by_cases hmem : target ∈ q.successors source
  · rw [Procedure.link, if_pos hmem]
    exact h
  · refine ⟨?_, ?_⟩
    · rw [Procedure.link, if_neg hmem]
      exact h.name
    · intro b
      rw [block?_link hmem, ← h.blocks b, Option.map_map]
      rfl

/-- Instructions change no block. -/
theorem SameBlocks.append (h : p.SameBlocks q) (block : BlockId) (opcode : Opcode)
    (operands : List ValueId) (name : Option String) :
    p.SameBlocks (q.append block opcode operands name).1 := by
  refine ⟨h.name, ?_⟩
  intro b
  rw [block?_append, ← h.blocks b]
  by_cases hb : block = b
  · rw [if_pos hb, Option.map_map]
    rfl
  · rw [if_neg hb]

end Procedure

namespace ProcedureDesc

variable (d : ProcedureDesc)

private theorem foldl_addBlock (blocks : List BlockDesc) (p : Procedure) :
    (blocks.foldl (fun p b ↦ (p.addBlock b.name).1) p).blockNames =
      p.blockNames ++ blocks.map BlockDesc.name := by
  induction blocks generalizing p with
  | nil => simp
  | cons b blocks ih =>
    rw [List.foldl_cons, ih]
    simp [Procedure.blockNames, Procedure.addBlock]

/-- The described blocks are allocated in order. -/
theorem blockNames_allocate : d.allocate.blockNames = d.blockNames := by
  rw [allocate, foldl_addBlock]
  simp [Procedure.blockNames, Procedure.empty, blockNames]

/-- Blocks without edges bear the name of the procedure. -/
theorem bare_allocate :
    d.allocate.name = d.name ∧
      ∀ b, d.allocate.successors b = [] ∧ d.allocate.predecessors b = [] := by
  refine List.foldlRecOn d.blocks (motive := fun p : Procedure ↦ p.name = d.name ∧
    ∀ b, p.successors b = [] ∧ p.predecessors b = []) _ ⟨rfl, fun b ↦ ⟨rfl, rfl⟩⟩ ?_
  intro p hp desc _
  refine ⟨hp.1, ?_⟩
  intro b
  rw [Procedure.successors_addBlock, Procedure.predecessors_addBlock]
  exact hp.2 b

/-- Placing instructions changes neither blocks nor edges. -/
theorem assemble_frame :
    d.allocate.SameBlocks d.assemble ∧ ∀ b,
      d.assemble.successors b = (d.linkAll d.allocate).successors b ∧
      d.assemble.predecessors b = (d.linkAll d.allocate).predecessors b := by
  have hlinked : d.allocate.SameBlocks (d.linkAll d.allocate) := by
    rw [linkAll_eq]
    exact linkEach_keeps (fun q source target hq ↦ hq.link source target) ⟨rfl, fun b ↦ rfl⟩ _
  apply placeAll_induction (P := fun q ↦ d.allocate.SameBlocks q ∧ ∀ b,
    q.successors b = (d.linkAll d.allocate).successors b ∧
    q.predecessors b = (d.linkAll d.allocate).predecessors b)
  · exact fun q name hq ↦ ⟨⟨hq.1.name, hq.1.blocks⟩, hq.2⟩
  · intro q block opcode operands name _ hq
    refine ⟨hq.1.append block opcode operands name, ?_⟩
    intro b
    rw [Procedure.successors_append, Procedure.predecessors_append]
    exact hq.2 b
  · exact ⟨hlinked, fun b ↦ ⟨rfl, rfl⟩⟩

/-- Every described edge leads from a block to a block. -/
theorem linkable_entries {d : ProcedureDesc} (hd : d.WellFormed) :
    ∀ e ∈ d.entries BlockDesc.successors, d.Linkable d.allocate e := by
  rintro ⟨i, name⟩ he
  constructor
  · rw [size_allocate]
    exact d.fst_lt_of_mem_entries _ he
  · obtain ⟨b, hb, hname⟩ := (d.mem_entries _).mp he
    exact hd.successors b (List.mem_of_getElem? hb) name hname

variable {d}

/-- Successors are listed in the order of their first mention. -/
theorem successors_assemble (hd : d.WellFormed) (i : BlockId) :
    d.assemble.successors i =
      ((d.blocks[i]?.map BlockDesc.successors).getD []).eraseDups.map d.position := by
  rw [(d.assemble_frame.2 i).1, linkAll_eq,
    successors_linkEach (fun b ↦ (d.bare_allocate.2 b).1) _ (linkable_entries hd),
    entriesOf_entries]

/-- Predecessors ascend. -/
theorem predecessors_assemble (hd : d.WellFormed) (i : BlockId) :
    (d.assemble.predecessors i).Pairwise (· ≤ ·) := by
  rw [(d.assemble_frame.2 i).2, linkAll_eq]
  apply predecessors_linkEach
  · intro e he
    rw [size_allocate]
    exact position_lt (linkable_entries hd e he).2
  · intro b
    rw [(d.bare_allocate.2 b).2, List.nil_append, List.pairwise_map]
    exact d.entries_ascending _

/-- A block stands at the position of its name. -/
theorem position_of_getElem? (hd : d.WellFormed) {i : Nat} {b : BlockDesc}
    (hb : d.blocks[i]? = some b) : d.position b.name = i := by
  have hname : d.blockNames[i]? = some b.name := by
    rw [blockNames, List.getElem?_map, hb]
    rfl
  obtain ⟨hi, hname⟩ := List.getElem?_eq_some_iff.mp hname
  rw [position, ← hname]
  exact hd.names.idxOf_getElem i hi

/-- A block succeeds another one exactly if that one lists its name. -/
theorem mem_successors_assemble (hd : d.WellFormed) {i : Nat} {b : BlockDesc}
    (hb : d.blocks[i]? = some b) (q : BlockId) :
    i ∈ d.assemble.successors q ↔ ∃ c, d.blocks[q]? = some c ∧ b.name ∈ c.successors := by
  have hmem : b.name ∈ d.blockNames := List.mem_map_of_mem (List.mem_of_getElem? hb)
  rw [successors_assemble hd, ← position_of_getElem? hd hb]
  cases hq : d.blocks[q]? with
  | none => simp
  | some c =>
    simp only [Option.map_some, Option.getD_some, List.mem_map, List.mem_eraseDups,
      @eq_comm _ _ (d.position b.name), position_eq_iff hmem, exists_eq_right', Option.some.injEq,
      exists_eq_left']

/-- Predecessors are the blocks that list the name, in ascending order. -/
theorem predecessors_eq (hd : d.WellFormed) (hbuilt : d.assemble.WellBuilt) {i : Nat}
    {b : BlockDesc} (hb : d.blocks[i]? = some b) :
    d.assemble.predecessors i =
      (d.blocks.zipIdx.filter fun e ↦ b.name ∈ e.1.successors).map Prod.snd := by
  -- both lists ascend strictly, so it is enough to compare their members
  apply List.Pairwise.eq_of_mem_iff (r := (· < ·))
  · apply ((predecessors_assemble hd i).and (hbuilt.predecessors_nodup i)).imp
    intro q q' h
    exact Nat.lt_of_le_of_ne h.1 h.2
  · rw [List.pairwise_map]
    exact d.blocks_ascending.filter _
  · intro q
    rw [← hbuilt.mirrored, mem_successors_assemble hd hb]
    simp [List.mem_zipIdx_iff_getElem?]

/-- Entering edges adds no block. -/
theorem size_linkAll_allocate (d : ProcedureDesc) :
    (d.linkAll d.allocate).blocks.size = d.blocks.length := by
  rw [linkAll_eq, size_blocks_linkEach, size_allocate]

/-- The code of a block is what it lists. -/
theorem shape_assemble (i : BlockId) :
    (d.assemble.code i).map Instruction.shape =
      ((d.blocks[i]?.map BlockDesc.instructions).getD []).map InstructionDesc.shape := by
  rw [assemble, Assembly.placeAll_eq, Assembly.shape_placeEach _ d.code_linkAll_allocate,
    entriesOf_entries]
  intro e he
  rw [size_linkAll_allocate]
  exact d.fst_lt_of_mem_entries _ he

/-- An accepted description gives a well-built procedure. -/
theorem wellBuilt_of_toProcedure {p : Procedure} (h : d.toProcedure = .ok p) : p.WellBuilt := by
  obtain ⟨hfault, rfl⟩ := toProcedure_eq_ok_iff.mp h
  have hintact : d.assemble.Intact :=
    assemble_keeps (fun _ _ hp hbuilt ↦ hp.built hbuilt) hfault (Procedure.intact_empty d.name)
  exact hintact.wellBuilt

/-- The procedure of an accepted description has its name, and a block of the same name for each
described one, in order. The instructions of a block have the described opcodes and as many operands
as described. Its successors bear the names that it lists, each where it is mentioned first, and its
predecessors are the blocks that list its name, in ascending order. -/
theorem assembled_as_described (d : ProcedureDesc) (p : Procedure) (h : d.toProcedure = .ok p) :
    p.name = d.name ∧ p.blockNames = d.blockNames ∧
    ∀ i b, d.blocks[i]? = some b →
      (p.code i).map Instruction.shape = b.instructions.map InstructionDesc.shape ∧
      (p.successors i).map (fun s ↦ d.blockNames[s]?) = b.successors.eraseDups.map some ∧
      p.predecessors i =
        (d.blocks.zipIdx.filter fun e ↦ b.name ∈ e.1.successors).map Prod.snd := by
  have hbuilt : p.WellBuilt := wellBuilt_of_toProcedure h
  obtain ⟨hfault, rfl⟩ := toProcedure_eq_ok_iff.mp h
  have hd : d.WellFormed := fault?_eq_none_iff.mp hfault
  refine ⟨d.assemble_frame.1.name.trans d.bare_allocate.1,
    d.assemble_frame.1.blockNames_eq.trans d.blockNames_allocate, ?_⟩
  intro i b hb
  refine ⟨?_, ?_, ?_⟩
  · simpa [hb] using d.shape_assemble i
  · rw [successors_assemble hd, hb, Option.map_some, Option.getD_some, List.map_map]
    apply List.map_congr_left
    intro name hname
    exact List.getElem?_idxOf
      (hd.successors b (List.mem_of_getElem? hb) name (List.mem_eraseDups.mp hname))
  · exact predecessors_eq hd hbuilt hb

/-- Edges that are listed twice, lead back, or lead to where they come from. -/
def web : ProcedureDesc where
  name := "web"
  blocks := [
    { name := "a", successors := ["c", "b", "c", "a"]
      instructions := [{ opcode := "load", operands := ["x"] }] },
    { name := "b", successors := ["a", "a"]
      instructions := [{ name := some "x", opcode := "phi" }] },
    { name := "c", successors := ["c", "a"]
      instructions := [{ opcode := "add", operands := ["x", "x", "y"] }] }]

/-- The procedure of the web. -/
def webProcedure : Procedure where
  name := "web"
  values := #[⟨some "x", none⟩, ⟨none, some (0, 0)⟩, ⟨some "x", some (1, 0)⟩, ⟨some "y", none⟩,
    ⟨none, some (2, 0)⟩]
  blocks := #[
    { id := 0, name := "a", instructions := #[⟨.load, [0], 1⟩], successors := [2, 1, 0]
      predecessors := [0, 1, 2] },
    { id := 1, name := "b", instructions := #[⟨.other "phi", [], 2⟩], successors := [0]
      predecessors := [0] },
    { id := 2, name := "c", instructions := #[⟨.add, [2, 2, 3], 4⟩], successors := [2, 0]
      predecessors := [0, 2] }]

/-- In the web the first block is entered from all three, and left in the order of its list. -/
theorem web_as_described :
    web.toProcedure = .ok webProcedure ∧ webProcedure.blockNames = ["a", "b", "c"] ∧
    (webProcedure.code 2).map Instruction.shape = [(.add, 3)] ∧
    (webProcedure.successors 0).map (fun s ↦ web.blockNames[s]?) =
      [some "c", some "b", some "a"] ∧
    webProcedure.predecessors 0 = [0, 1, 2] := by
  have hweb : web.toProcedure = .ok webProcedure := by decide +kernel
  obtain ⟨-, hnames, hblocks⟩ := assembled_as_described web webProcedure hweb
  obtain ⟨-, hsuccessors, hpredecessors⟩ := hblocks 0 _ rfl
  exact ⟨hweb, hnames, (hblocks 2 _ rfl).1, hsuccessors, hpredecessors⟩

end ProcedureDesc

end BlockFlow
