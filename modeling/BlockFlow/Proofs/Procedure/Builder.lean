import BlockFlow.FlowGraph
import BlockFlow.Procedure.Builder
import BlockFlow.Proofs.Fallible

/-!
# Procedures that a builder makes

A call that succeeds allocates a value, allocates a block, appends an instruction to a block that is
there, or enters an edge between blocks that are there. Only the last touches the edge lists, and it
enters its edge at both ends; so in every procedure that is built from the empty one a block is
among the successors of another exactly if that one is among its predecessors. Such a procedure is
coherent: its blocks carry their positions as ids and its edges lead to blocks.
-/

namespace BlockFlow.Procedure

/-- What a successful call makes of a procedure. -/
inductive Built (p : Procedure) : Procedure → Prop
  | value (name : Option String) : Built p (p.addValue { name, definedBy := none }).1
  | block (name : String) : Built p (p.addBlock name).1
  | instruction (block : BlockId) (opcode : Opcode) (operands : List ValueId)
    (name : Option String) (hb : block < p.blocks.size) :
    Built p (p.append block opcode operands name).1
  | edge (source target : BlockId) (hs : source < p.blocks.size)
    (ht : target ∈ p.successors source ∨ target < p.blocks.size) :
    Built p (p.link source target)

/-- Every call that succeeds is one of these. -/
theorem built_of_build {p p' : Procedure} {step : BuildStep} {id : Option Nat}
    (h : p.build step = .ok (p', id)) : Built p p' := by
  cases step with
  | value name =>
    cases h
    exact .value _
  | anonymousValue =>
    cases h
    exact .value _
  | block name =>
    cases h
    exact .block name
  | instruction block opcode operands name =>
    dsimp only [build, addInstruction] at h
    split at h
    · cases h
    · next hb =>
      cases h
      exact .instruction block opcode operands name (Nat.lt_of_not_le hb)
  | edge source target =>
    dsimp only [build, addEdge] at h
    split at h
    · cases h
    · next hs =>
      split at h
      · cases h
      · next ht =>
        cases h
        rw [not_and, Nat.not_le] at ht
        exact .edge source target (Nat.lt_of_not_le hs) (Classical.or_iff_not_imp_left.mpr ht)

/-- What every successful call keeps holds after every sequence of them. -/
theorem buildAll_keeps {P : Procedure → Prop} (hstep : ∀ p p', P p → Built p p' → P p')
    {p p' : Procedure} {steps : List BuildStep} (hp : P p) (h : p.buildAll steps = .ok p') :
    P p' := by
  induction steps generalizing p with
  | nil =>
    cases h
    exact hp
  | cons step steps ih =>
    obtain ⟨⟨next, id⟩, hnext, h⟩ := bind_eq_ok_iff.mp h
    exact ih (hstep p next hp (built_of_build hnext)) h

/-! ### Edge lists -/

/-- A new block stands behind the others. -/
theorem block?_addBlock (p : Procedure) (name : String) (b : BlockId) :
    (p.addBlock name).1.block? b = if b = p.blocks.size then
      some { id := p.blocks.size, name, instructions := #[], successors := [], predecessors := [] }
      else p.block? b := by
  simp only [block?, addBlock, Array.getElem?_push]

/-- An instruction is appended to its block only. -/
theorem block?_append (p : Procedure) (block : BlockId) (opcode : Opcode)
    (operands : List ValueId) (name : Option String) (b : BlockId) :
    (p.append block opcode operands name).1.block? b = if block = b then
      (p.block? b).map fun b ↦ { b with
        instructions := b.instructions.push { opcode, operands, result := p.values.size } }
      else p.block? b := by
  simp only [block?, append, addValue, Array.getElem?_modify]

/-- A new block has no edges, as an unknown one has none. -/
@[simp]
theorem successors_addBlock (p : Procedure) (name : String) (b : BlockId) :
    (p.addBlock name).1.successors b = p.successors b := by
  rw [successors, successors, block?_addBlock]
  split
  · next hb => simp [block?, hb]
  · rfl

@[simp]
theorem predecessors_addBlock (p : Procedure) (name : String) (b : BlockId) :
    (p.addBlock name).1.predecessors b = p.predecessors b := by
  rw [predecessors, predecessors, block?_addBlock]
  split
  · next hb => simp [block?, hb]
  · rfl

/-- Instructions are no edges. -/
@[simp]
theorem successors_append (p : Procedure) (block : BlockId) (opcode : Opcode)
    (operands : List ValueId) (name : Option String) (b : BlockId) :
    (p.append block opcode operands name).1.successors b = p.successors b := by
  rw [successors, successors, block?_append]
  split <;> cases p.block? b <;> rfl

@[simp]
theorem predecessors_append (p : Procedure) (block : BlockId) (opcode : Opcode)
    (operands : List ValueId) (name : Option String) (b : BlockId) :
    (p.append block opcode operands name).1.predecessors b = p.predecessors b := by
  rw [predecessors, predecessors, block?_append]
  split <;> cases p.block? b <;> rfl

/-- A new edge changes the edge lists of its ends only. -/
theorem block?_link {p : Procedure} {source target : BlockId}
    (h : target ∉ p.successors source) (b : BlockId) :
    (p.link source target).block? b = ((p.block? b).map fun c ↦ { c with
      successors := if source = b then c.successors ++ [target] else c.successors
      predecessors := if target = b then c.predecessors ++ [source] else c.predecessors }) := by
  rw [link, if_neg h]
  simp only [block?, Array.getElem?_modify]
  cases p.blocks[b]? with
  | none => simp
  | some c => by_cases hs : source = b <;> by_cases ht : target = b <;> simp [hs, ht]

/-- An edge between known blocks is entered at its source. -/
theorem mem_successors_link {p : Procedure} {source target : BlockId}
    (hs : source < p.blocks.size) (b s : BlockId) :
    s ∈ (p.link source target).successors b ↔
      s ∈ p.successors b ∨ b = source ∧ s = target := by
  by_cases h : target ∈ p.successors source
  · rw [link, if_pos h]
    constructor
    · exact .inl
    · rintro (hmem | ⟨rfl, rfl⟩)
      · exact hmem
      · exact h
  · rw [successors, successors, block?_link h]
    by_cases hb : source = b
    · subst hb
      have hblock : p.block? source = some p.blocks[source] := Array.getElem?_eq_getElem hs
      simp [hblock]
    · cases p.block? b <;> simp [hb, Ne.symm hb]

/-- An edge between known blocks that is new is entered at its target. -/
theorem mem_predecessors_link {p : Procedure} {source target : BlockId}
    (h : target ∉ p.successors source) (ht : target < p.blocks.size) (b s : BlockId) :
    b ∈ (p.link source target).predecessors s ↔
      b ∈ p.predecessors s ∨ b = source ∧ s = target := by
  rw [predecessors, predecessors, block?_link h]
  by_cases hs : target = s
  · subst hs
    have hblock : p.block? target = some p.blocks[target] := Array.getElem?_eq_getElem ht
    simp [hblock]
  · cases p.block? s <;> simp [hs, Ne.symm hs]

/-- Every edge is listed at both of its ends. -/
def EdgesMirrored (p : Procedure) : Prop :=
  ∀ b s, s ∈ p.successors b ↔ b ∈ p.predecessors s

/-- Calls keep the edge lists mirrored. -/
theorem EdgesMirrored.built {p p' : Procedure} (hp : p.EdgesMirrored) (h : Built p p') :
    p'.EdgesMirrored := by
  intro b s
  cases h with
  | value name => exact hp b s
  | block name =>
    rw [successors_addBlock, predecessors_addBlock]
    exact hp b s
  | instruction block opcode operands name hb =>
    rw [successors_append, predecessors_append]
    exact hp b s
  | edge source target hs ht =>
    by_cases h : target ∈ p.successors source
    · rw [link, if_pos h]
      exact hp b s
    · rw [mem_successors_link hs, mem_predecessors_link h (ht.resolve_left h), hp b s]

/-- The edge lists of a procedure that is built from the empty one are mirrored. -/
theorem edgesMirrored_of_buildAll {name : String} {steps : List BuildStep} {p : Procedure}
    (h : (empty name).buildAll steps = .ok p) : p.EdgesMirrored := by
  have hempty : (empty name).EdgesMirrored := by
    intro b s
    simp [successors, predecessors, block?, empty]
  exact buildAll_keeps (fun _ _ hp hb ↦ hp.built hb) hempty h

/-- Mirrored edge lists agree in the sense of the solver. -/
theorem EdgesMirrored.edgesAgree {p : Procedure} (hp : p.EdgesMirrored) : p.graph.EdgesAgree :=
  fun b _ s hs ↦ (hp b s).mp hs

/-! ### Coherence -/

/-- Only a new block adds to the blocks. -/
@[simp]
theorem size_blocks_addBlock (p : Procedure) (name : String) :
    (p.addBlock name).1.blocks.size = p.blocks.size + 1 := by
  simp [addBlock]

@[simp]
theorem size_blocks_append (p : Procedure) (block : BlockId) (opcode : Opcode)
    (operands : List ValueId) (name : Option String) :
    (p.append block opcode operands name).1.blocks.size = p.blocks.size := by
  simp [append, addValue]

@[simp]
theorem size_blocks_link (p : Procedure) (source target : BlockId) :
    (p.link source target).blocks.size = p.blocks.size := by
  unfold link
  split
  · rfl
  · simp

/-- Every block carries its position as its id. -/
def Placed (p : Procedure) : Prop := ∀ i b, p.block? i = some b → b.id = i

/-- Calls keep blocks placed. -/
theorem Placed.built {p p' : Procedure} (hp : p.Placed) (h : Built p p') : p'.Placed := by
  intro i b hb
  cases h with
  | value name => exact hp i b hb
  | block name =>
    rw [block?_addBlock] at hb
    split at hb
    · next hi =>
      cases hb
      exact hi.symm
    · exact hp i b hb
  | instruction block opcode operands name hblock =>
    rw [block?_append] at hb
    split at hb
    · obtain ⟨c, hc, rfl⟩ := Option.map_eq_some_iff.mp hb
      exact hp i c hc
    · exact hp i b hb
  | edge source target hs ht =>
    by_cases h : target ∈ p.successors source
    · rw [link, if_pos h] at hb
      exact hp i b hb
    · rw [block?_link h] at hb
      obtain ⟨c, hc, rfl⟩ := Option.map_eq_some_iff.mp hb
      exact hp i c hc

/-- Every edge leads to a block. -/
def EdgesKnown (p : Procedure) : Prop := ∀ b s, s ∈ p.successors b → s < p.blocks.size

/-- Calls enter no edge to an unknown block, and take no block away. -/
theorem EdgesKnown.built {p p' : Procedure} (hp : p.EdgesKnown) (h : Built p p') :
    p'.EdgesKnown := by
  intro b s hmem
  cases h with
  | value name => exact hp b s hmem
  | block name =>
    rw [successors_addBlock] at hmem
    rw [size_blocks_addBlock]
    exact Nat.lt_succ_of_lt (hp b s hmem)
  | instruction block opcode operands name hblock =>
    rw [successors_append] at hmem
    rw [size_blocks_append]
    exact hp b s hmem
  | edge source target hs ht =>
    rw [size_blocks_link]
    rcases (mem_successors_link hs b s).mp hmem with hold | ⟨rfl, rfl⟩
    · exact hp b s hold
    · exact ht.elim (hp b s) id

/-- Blocks stand where their ids say, and edges lead to blocks and are listed at both ends. -/
structure Coherent (p : Procedure) : Prop where
  placed : p.Placed
  known : p.EdgesKnown
  mirrored : p.EdgesMirrored

/-- The empty procedure is coherent. -/
theorem coherent_empty (name : String) : (empty name).Coherent := by
  constructor
  · intro i b hb
    simp [block?, empty] at hb
  · intro b s hs
    simp [successors, block?, empty] at hs
  · intro b s
    simp [successors, predecessors, block?, empty]

/-- Calls keep a procedure coherent. -/
theorem Coherent.built {p p' : Procedure} (hp : p.Coherent) (h : Built p p') : p'.Coherent :=
  ⟨hp.placed.built h, hp.known.built h, hp.mirrored.built h⟩

namespace Coherent

variable {p : Procedure} (hp : p.Coherent)

include hp

/-- Blocks are enumerated by their positions. -/
theorem blockIds_eq : p.blockIds = List.range p.blocks.size := by
  apply List.ext_getElem
  · simp [blockIds]
  · intro i hi hi'
    have hsize : i < p.blocks.size := by simpa using hi'
    have hid := hp.placed i p.blocks[i] (by simp [block?, hsize])
    simpa [blockIds] using hid

/-- Predecessors are blocks: they have an edge that leaves them. -/
theorem predecessors_lt (b q : BlockId) (hq : q ∈ p.predecessors b) : q < p.blocks.size := by
  have hedge := (hp.mirrored q b).mpr hq
  by_contra hlt
  have hnone : p.block? q = none := Array.getElem?_eq_none (Nat.le_of_not_lt hlt)
  simp [successors, hnone] at hedge

end Coherent

end BlockFlow.Procedure
