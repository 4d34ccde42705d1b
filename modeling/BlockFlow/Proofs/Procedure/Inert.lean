import BlockFlow.Proofs.Liveness.Recoded
import BlockFlow.Proofs.Numbering.Scan

/-!
# Instructions without effect

An instruction is inert if its opcode is not one that the analyses interpret, or if it lacks an
operand that they read. Main statement: inert instructions may be deleted without a trace. A scan
passes over them before it asks its table for anything, so no number is spent on them; and a block
without them has the same summary. What is left after they are deleted is numbered without
exception, and for liveness the operators may be deleted too.
-/

namespace BlockFlow

/-- Whether the opcode is not interpreted or an operand is missing that it needs. -/
def Instruction.isInert (inst : Instruction) : Bool :=
  match inst.opcode with
  | .other _ => true
  | .load => inst.operands.isEmpty
  | _ => inst.operands.length < 2

/-- The inert instructions are those without an effect. -/
theorem Instruction.isInert_iff (inst : Instruction) :
    inst.isInert = true ↔ inst.effect = .none := by
  obtain ⟨opcode, operands, result⟩ := inst
  unfold isInert effect
  cases opcode <;> rcases operands with _ | ⟨a, _ | ⟨b, rest⟩⟩ <;> simp

/-- An operator computes, or is inert. -/
theorem Instruction.effect_of_isBinary {inst : Instruction} (h : inst.opcode.isBinary = true) :
    inst.effect = .none ∨ ∃ op lhs rhs, inst.effect = .compute op lhs rhs := by
  obtain ⟨opcode, operands, result⟩ := inst
  unfold effect
  cases opcode <;> rcases operands with _ | ⟨a, _ | ⟨b, rest⟩⟩ <;> simp_all [Opcode.isBinary]

/-- The procedure without the instructions that satisfy `drop`. -/
def Procedure.without (drop : Instruction → Bool) (p : Procedure) : Procedure :=
  { p with blocks := p.blocks.map (BasicBlock.recode (·.filter (!drop ·))) }

/-- Only the instructions of the blocks are different. -/
theorem Procedure.recodedBy_without (drop : Instruction → Bool) (p : Procedure) :
    p.RecodedBy (·.filter (!drop ·)) (p.without drop) :=
  rfl

/-! ### Numbering -/

namespace Numbering

/-- The site in its block without the instructions that satisfy `drop`. -/
def lighten (drop : Instruction → Bool) (site : Site) : Site :=
  { site with block := site.block.recode (·.filter (!drop ·)) }

/-- The sites that are left of some sites. -/
def spare (drop : Instruction → Bool) (sites : List Site) : List Site :=
  (sites.filter (!drop ·.instruction)).map (lighten drop)

/-- The sites that are left are those of the other instructions. -/
theorem sites_without (drop : Instruction → Bool) (p : Procedure) :
    (p.without drop).sites = spare drop p.sites := by
  have hblock (b : BasicBlock) : (b.recode (·.filter (!drop ·))).sites = spare drop b.sites := by
    simp [BasicBlock.sites, BasicBlock.recode, spare, lighten, List.filter_map, Function.comp_def]
  rw [Procedure.sites, (p.recodedBy_without drop).toList_blocks, List.flatMap_map, Procedure.sites,
    spare, List.filter_flatMap, List.map_flatMap]
  simp only [hblock, spare]

/-- A site that is left has an instruction that does not satisfy `drop`. -/
theorem of_mem_spare {drop : Instruction → Bool} {sites : List Site} {site : Site}
    (h : site ∈ spare drop sites) : drop site.instruction = false := by
  obtain ⟨original, horiginal, rfl⟩ := List.mem_map.mp h
  simpa [lighten] using (List.mem_filter.mp horiginal).2

/-- The first instruction has its record, if any, in front of those of the others. -/
theorem records_cons (ordered : Bool) (p : Procedure) (t : Table) (site : Site)
    (sites : List Site) :
    let assigned := t.assign ordered site.instruction.result site.instruction.effect
    (scan ordered t (site :: sites)).2.filterMap (Step.record? p) =
      (Step.record? p ⟨site, assigned.2⟩).toList ++
        (scan ordered assigned.1 sites).2.filterMap (Step.record? p) := by
  simp only [scan, List.filterMap_cons]
  cases Step.record? p _ with
  | none => rfl
  | some record => rfl

variable {drop : Instruction → Bool}

/-- A scan that is spared inert instructions leaves the same table, and its steps have the same
records. -/
theorem scan_spare (hdrop : ∀ inst, drop inst = true → inst.effect = .none) (p : Procedure)
    (ordered : Bool) (t : Table) (sites : List Site) :
    (scan ordered t (spare drop sites)).1 = (scan ordered t sites).1 ∧
      (scan ordered t (spare drop sites)).2.filterMap (Step.record? (p.without drop)) =
        (scan ordered t sites).2.filterMap (Step.record? p) := by
  induction sites generalizing t with
  | nil => exact ⟨rfl, rfl⟩
  | cons site sites ih =>
    by_cases hsite : drop site.instruction = true
    · -- nothing is asked of the table, and there is no record
      have hspare : spare drop (site :: sites) = spare drop sites := by simp [spare, hsite]
      rw [hspare, records_cons, scan, hdrop _ hsite]
      exact ih t
    · have hspare : spare drop (site :: sites) = lighten drop site :: spare drop sites := by
        simp [spare, hsite]
      rw [hspare, records_cons, records_cons]
      obtain ⟨htable, hrecords⟩ := ih (t.assign ordered site.instruction.result
        site.instruction.effect).1
      exact ⟨htable, congrArg (_ ++ ·) hrecords⟩

/-- Deleting inert instructions changes neither the records nor the table. -/
theorem numberInto_without (hdrop : ∀ inst, drop inst = true → inst.effect = .none)
    (ordered : Bool) (p : Procedure) (t : Table) :
    numberInto ordered (p.without drop) t = numberInto ordered p t := by
  obtain ⟨htable, hrecords⟩ := scan_spare hdrop p ordered t p.sites
  rw [numberInto, numberInto, sites_without]
  dsimp only
  rw [htable, hrecords]
  rfl

/-- The instruction that a record is about: its block, its result and its text. -/
def Record.subject (r : Record) : BlockId × ValueId × String := (r.block, r.result, r.instruction)

/-- What a record about an instruction has to say it is about. -/
def subjectOf (p : Procedure) (site : Site) : BlockId × ValueId × String :=
  (site.block.id, site.instruction.result, p.instructionText site.instruction)

/-- Where every instruction has an effect, there is one record for each of them, in order. -/
theorem map_subject_scan (ordered : Bool) (p : Procedure) (t : Table) (sites : List Site)
    (h : ∀ site ∈ sites, site.instruction.effect ≠ .none) :
    ((scan ordered t sites).2.filterMap (Step.record? p)).map Record.subject =
      sites.map (subjectOf p) := by
  induction sites generalizing t with
  | nil => rfl
  | cons site sites ih =>
    obtain ⟨a, ha⟩ := Option.ne_none_iff_exists'.mp
      (mt (assign_eq_none_iff ordered t site.instruction.result site.instruction.effect).mp
        (h site List.mem_cons_self))
    have hrest := ih (t.assign ordered site.instruction.result site.instruction.effect).1
      fun s hs ↦ h s (List.mem_cons_of_mem site hs)
    rw [records_cons, List.map_append, hrest, ha]
    rfl

end Numbering

/-! ### Liveness -/

namespace Liveness

/-- An effect that is neither a load nor a store adds nothing to a summary. -/
theorem extend_of_untouched (s : Equation ValueId) {effect : Effect}
    (h : effect = .none ∨ ∃ op lhs rhs, effect = .compute op lhs rhs) : extend s effect = s := by
  obtain rfl | ⟨op, lhs, rhs, rfl⟩ := h
  · rfl
  · rfl

variable {drop : Instruction → Bool}

/-- A block has the same summary without instructions that touch no variable. -/
theorem summary_without
    (hdrop : ∀ inst, drop inst = true → ∀ s, extend s inst.effect = s) (b : BasicBlock) :
    summary (b.recode (·.filter (!drop ·))) = summary b := by
  rw [summary, summary, BasicBlock.recode, Array.toList_filter, List.foldl_filter]
  congr 1
  funext s inst
  by_cases h : drop inst = true
  · simp [h, hdrop inst h s]
  · simp [h]

/-- Deleting instructions that touch no variable leaves the answer as it is. -/
theorem analyze_without
    (hdrop : ∀ inst, drop inst = true → ∀ s, extend s inst.effect = s) (solver : Solver)
    (p : Procedure) : analyze solver (p.without drop) = analyze solver p := by
  have hrecoded := p.recodedBy_without drop
  cases h : misplaced? p with
  | some position =>
    rw [analyze_of_misplaced h, analyze_of_misplaced (hrecoded.misplaced?_eq.trans h)]
  | none =>
    have hrows : (summaries p).toList = (p.without drop).blocks.toList.map summary := by
      rw [hrecoded.toList_blocks, List.map_map, toList_summaries]
      exact (List.map_congr_left fun b _ ↦ summary_without hdrop b).symm
    have hreport (out : FactSets ValueId p.blocks.size) (iterations : Nat) :
        reportFrom (p.without drop) (summaries p) out iterations =
          reportFrom p (summaries p) out iterations := by
      unfold reportFrom
      rw [hrecoded.toList_blocks, List.zip_map_left, List.map_map]
      rfl
    rw [analyze_of_rows h (toList_summaries p),
      analyze_of_rows (hrecoded.misplaced?_eq.trans h) hrows, hrecoded.graph_eq]
    simp only [hreport]

end Liveness

/-- Deleting the inert instructions of a procedure, and nothing else, makes no difference: numbering
leaves the same table, counter included, and the same records, from any table and whether or not
operands are put in order; liveness gives the same answer under any solver. Each instruction that is
left has a record. Liveness gives the same answer also where the operators are deleted. -/
theorem inert_without_trace (p : Procedure) :
    (∀ ordered t, Numbering.numberInto ordered (p.without Instruction.isInert) t =
      Numbering.numberInto ordered p t) ∧
    (∀ ordered t, (Numbering.numberInto ordered p t).2.records.map Numbering.Record.subject =
      (p.without Instruction.isInert).sites.map (Numbering.subjectOf p)) ∧
    (∀ solver, Liveness.analyze solver (p.without Instruction.isInert) =
      Liveness.analyze solver p) ∧
    ∀ solver, Liveness.analyze solver (p.without fun inst ↦ inst.isInert || inst.opcode.isBinary) =
      Liveness.analyze solver p := by
  have hinert (inst : Instruction) (h : inst.isInert = true) : inst.effect = .none :=
    inst.isInert_iff.mp h
  refine ⟨fun ordered t ↦ Numbering.numberInto_without hinert ordered p t, ?_, ?_, ?_⟩
  · intro ordered t
    rw [← Numbering.numberInto_without hinert ordered p t]
    apply Numbering.map_subject_scan
    intro site hsite
    rw [Numbering.sites_without] at hsite
    rw [ne_eq, ← Instruction.isInert_iff, Numbering.of_mem_spare hsite]
    exact Bool.false_ne_true
  · intro solver
    refine Liveness.analyze_without (fun inst h s ↦ ?_) solver p
    exact Liveness.extend_of_untouched s (.inl (hinert inst h))
  · intro solver
    refine Liveness.analyze_without (fun inst h s ↦ Liveness.extend_of_untouched s ?_) solver p
    rcases Bool.or_eq_true_iff.mp h with h | h
    · exact .inl (hinert inst h)
    · exact inst.effect_of_isBinary h

end BlockFlow
