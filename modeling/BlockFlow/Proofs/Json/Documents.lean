import BlockFlow.File
import BlockFlow.Procedure.Json
import BlockFlow.Proofs.Json.Fields

/-!
# Procedures and descriptions are recovered from JSON

A procedure fits its file format if its ids and positions fit the words that hold them; nothing is
asked of what they refer to. Every procedure that fits and every description is recovered from its
JSON text, so different ones have different texts.
-/

namespace BlockFlow

open Json (ofText RoundTrips roundTrips_ofText roundTrips_ofNat roundTrips_ofList)

/-! ### What fits into a file -/

/-- A block id or a value id of thirty-two bits. -/
def FitsId (id : Nat) : Prop := id ≤ Text.maxWord32

/-- The place of a definition has an id of thirty-two bits and a position of sixty-four. -/
def Value.Fits (v : Value) : Prop :=
  ∀ site ∈ v.definedBy, FitsId site.1 ∧ site.2 ≤ Text.maxWord64

/-- The values of an instruction have ids of thirty-two bits. -/
@[mk_iff]
structure Instruction.Fits (inst : Instruction) : Prop where
  operands : ∀ v ∈ inst.operands, FitsId v
  result : FitsId inst.result

/-- The block, its neighbours and the values of its instructions have ids of thirty-two bits. -/
@[mk_iff]
structure BasicBlock.Fits (b : BasicBlock) : Prop where
  id : FitsId b.id
  instructions : ∀ inst ∈ b.instructions.toList, inst.Fits
  successors : ∀ s ∈ b.successors, FitsId s
  predecessors : ∀ s ∈ b.predecessors, FitsId s

/-- Every id and position of a procedure fits its word. -/
@[mk_iff]
structure Procedure.Fits (p : Procedure) : Prop where
  values : ∀ v ∈ p.values.toList, v.Fits
  blocks : ∀ b ∈ p.blocks.toList, b.Fits

instance (id : Nat) : Decidable (FitsId id) := inferInstanceAs (Decidable (id ≤ Text.maxWord32))

instance (v : Value) : Decidable v.Fits :=
  inferInstanceAs (Decidable (∀ site ∈ v.definedBy, FitsId site.1 ∧ site.2 ≤ Text.maxWord64))

instance (inst : Instruction) : Decidable inst.Fits :=
  decidable_of_iff _ (Instruction.fits_iff inst).symm

instance (b : BasicBlock) : Decidable b.Fits := decidable_of_iff _ (BasicBlock.fits_iff b).symm

instance (p : Procedure) : Decidable p.Fits := decidable_of_iff _ (Procedure.fits_iff p).symm

/-! ### Procedures -/

theorem roundTrips_id {id : Nat} (h : FitsId id) : RoundTrips Json.ofNat idOfJson? id :=
  roundTrips_ofNat h

theorem roundTrips_ids {ids : List Nat} (h : ∀ id ∈ ids, FitsId id) :
    RoundTrips (Json.ofList Json.ofNat) (Json.list? idOfJson?) ids :=
  roundTrips_ofList fun id hid ↦ roundTrips_id (h id hid)

/-- The mnemonic of an uninterpreted opcode stands beside its tag, so it may be any text, also the
name of another opcode. -/
theorem Opcode.roundTrips (op : Opcode) : RoundTrips toJson ofJson? op := by
  cases op with
  | other name =>
    constructor
    · apply Json.readsBack_ofMembers
      simp
    · simp [toJson, ofJson?, Json.choice?_ofMembers]
  | _ =>
    constructor
    · exact Json.readsBack_ofText _
    · simp [toJson, ofJson?, Json.choice?_ofText, Json.carriesNothing, ofTag?, guard]

/-- An absent place is `null`, and another is a pair. -/
theorem Value.roundTrips_site {site : Option (BlockId × Nat)}
    (h : ∀ s ∈ site, FitsId s.1 ∧ s.2 ≤ Text.maxWord64) :
    RoundTrips siteToJson siteOfJson? site := by
  cases site with
  | none => exact ⟨Json.readsBack_null, rfl⟩
  | some s =>
    have hblock := roundTrips_id (h s rfl).1
    have hposition := roundTrips_ofNat (h s rfl).2
    constructor
    · apply Json.readsBack_array
      simp [hblock.readsBack, hposition.readsBack]
    · simp [siteToJson, siteOfJson?, Json.orNull?, hblock.read_write, hposition.read_write]

/-- An optional text is `null` or a string. -/
theorem roundTrips_name (name : Option String) :
    RoundTrips (·.elim .null ofText) (Json.orNull? Json.text?) name :=
  Json.roundTrips_orNull (fun text _ ↦ roundTrips_ofText text) fun _ h ↦ nomatch h

theorem Value.Fits.roundTrips {v : Value} (h : v.Fits) : RoundTrips toJson ofJson? v := by
  have hname := roundTrips_name v.name
  have hsite := roundTrips_site h
  refine .of_record rfl (fun _ ↦ rfl) (by simp) (by simp) ?_ ?_
  · simp [hname.readsBack, hsite.readsBack]
  · simp [Fields.optional, hname.read_write, hsite.read_write]

theorem Instruction.Fits.roundTrips {inst : Instruction} (h : inst.Fits) :
    RoundTrips toJson ofJson? inst := by
  have hopcode := inst.opcode.roundTrips
  have hoperands := roundTrips_ids h.operands
  have hresult := roundTrips_id h.result
  refine .of_record rfl (fun _ ↦ rfl) (by simp) (by simp) ?_ ?_
  · simp [hopcode.readsBack, hoperands.readsBack, hresult.readsBack]
  · simp [Fields.required, hopcode.read_write, hoperands.read_write, hresult.read_write]

theorem BasicBlock.Fits.roundTrips {b : BasicBlock} (h : b.Fits) :
    RoundTrips toJson ofJson? b := by
  have hid := roundTrips_id h.id
  have hinstructions := roundTrips_ofList fun inst hinst ↦ (h.instructions inst hinst).roundTrips
  have hsuccessors := roundTrips_ids h.successors
  have hpredecessors := roundTrips_ids h.predecessors
  refine .of_record rfl (fun _ ↦ rfl) (by simp) (by simp) ?_ ?_
  · simp [hid.readsBack, hinstructions.readsBack, hsuccessors.readsBack, hpredecessors.readsBack]
  · simp [Fields.required, hid.read_write, hinstructions.read_write, hsuccessors.read_write,
      hpredecessors.read_write]

theorem Procedure.Fits.roundTrips {p : Procedure} (h : p.Fits) : RoundTrips toJson ofJson? p := by
  have hvalues := roundTrips_ofList fun v hv ↦ (h.values v hv).roundTrips
  have hblocks := roundTrips_ofList fun b hb ↦ (h.blocks b hb).roundTrips
  refine .of_record rfl (fun _ ↦ rfl) (by simp) (by simp) ?_ ?_
  · simp [hvalues.readsBack, hblocks.readsBack]
  · simp [Fields.required, hvalues.read_write, hblocks.read_write]

/-! ### Descriptions -/

theorem roundTrips_texts (texts : List String) :
    RoundTrips (Json.ofList ofText) (Json.list? Json.text?) texts :=
  roundTrips_ofList fun text _ ↦ roundTrips_ofText text

/-- An absent name is left out, and reading what is left out gives none. -/
theorem InstructionDesc.roundTrips (d : InstructionDesc) : RoundTrips toJson ofJson? d := by
  obtain ⟨name, opcode, operands⟩ := d
  have hoperands := roundTrips_texts operands
  cases name with
  | none =>
    refine .of_record rfl (fun _ ↦ rfl) (by simp) (by simp) ?_ ?_
    · simp [hoperands.readsBack]
    · simp [Fields.required, Fields.optional, Fields.withDefault, hoperands.read_write]
  | some name =>
    have hname : Json.orNull? Json.text? (ofText name) = some (some name) :=
      (roundTrips_name (some name)).read_write
    refine .of_record rfl (fun _ ↦ rfl) (by simp) (by simp) ?_ ?_
    · simp [hoperands.readsBack]
    · simp [Fields.required, Fields.optional, Fields.withDefault, hname, hoperands.read_write]

theorem BlockDesc.roundTrips (d : BlockDesc) : RoundTrips toJson ofJson? d := by
  have hsuccessors := roundTrips_texts d.successors
  have hinstructions := roundTrips_ofList fun inst (_ : inst ∈ d.instructions) ↦ inst.roundTrips
  refine .of_record rfl (fun _ ↦ rfl) (by simp) (by simp) ?_ ?_
  · simp [hsuccessors.readsBack, hinstructions.readsBack]
  · simp [Fields.required, Fields.withDefault, hsuccessors.read_write, hinstructions.read_write]

theorem ProcedureDesc.roundTrips (d : ProcedureDesc) : RoundTrips toJson ofJson? d := by
  have hblocks := roundTrips_ofList fun b (_ : b ∈ d.blocks) ↦ b.roundTrips
  refine .of_record rfl (fun _ ↦ rfl) (by simp) (by simp) ?_ ?_
  · simp [hblocks.readsBack]
  · simp [Fields.required, hblocks.read_write]

theorem ModuleDesc.roundTrips (d : ModuleDesc) : RoundTrips toJson ofJson? d := by
  have hprocedures := roundTrips_ofList fun p (_ : p ∈ d.procedures) ↦ p.roundTrips
  refine .of_record rfl (fun _ ↦ rfl) (by simp) (by simp) ?_ ?_
  · simp [hprocedures.readsBack]
  · simp [Fields.withDefault, hprocedures.read_write]

/-! ### Texts -/

/-- Every procedure that fits and every description is recovered from its JSON text, so different
ones have different texts. -/
theorem documents_recovered :
    (∀ p : Procedure, p.Fits → Procedure.ofJsonText? p.toJsonText = some p) ∧
    (∀ d : ModuleDesc, ModuleDesc.ofJsonText d.toJsonText = .ok d) ∧
    (∀ p q : Procedure, p.Fits → q.Fits → p.toJsonText = q.toJsonText → p = q) ∧
    Function.Injective ModuleDesc.toJsonText := by
  refine ⟨fun p h ↦ h.roundTrips.text, fun d ↦ ?_, fun p q hp hq htext ↦ ?_, fun d e htext ↦ ?_⟩
  · have hread : ModuleDesc.ofJsonText? d.toJsonText = some d := d.roundTrips.text
    rw [ModuleDesc.ofJsonText, hread]
  · exact hp.roundTrips.eq_of_render_eq hq.roundTrips htext
  · exact d.roundTrips.eq_of_render_eq e.roundTrips htext

/-- A procedure with texts that need every kind of escape, the largest ids and positions, a missing
and an empty name, edges and values that lead nowhere, and the given opcode. -/
def ornate (op : Opcode) : Procedure where
  name := "\"\\/\x08\x0c\n\r\t\x00\x1f\x7fé\u2028😀"
  values := #[
    { name := none, definedBy := some (4294967295, 18446744073709551615) },
    { name := some "", definedBy := none }]
  blocks := #[{
    id := 4294967295
    name := ""
    instructions := #[
      { opcode := op, operands := [4294967295, 0], result := 7 },
      { opcode := .other "", operands := [], result := 0 }]
    successors := [9, 9]
    predecessors := [] }]

theorem ornate_recovered :
    (ornate .load).Fits ∧ (ornate (.other "load")).Fits ∧
    Procedure.ofJsonText? (ornate (.other "load")).toJsonText = some (ornate (.other "load")) ∧
    (ornate .load).toJsonText ≠ (ornate (.other "load")).toJsonText := by
  have hload : (ornate .load).Fits := by decide
  have hother : (ornate (.other "load")).Fits := by decide
  refine ⟨hload, hother, documents_recovered.1 _ hother, fun htext ↦ ?_⟩
  have heq : ornate .load = ornate (.other "load") :=
    documents_recovered.2.2.1 _ _ hload hother htext
  exact absurd heq (by decide)

end BlockFlow
