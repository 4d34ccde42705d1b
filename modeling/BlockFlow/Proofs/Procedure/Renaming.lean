import BlockFlow.Proofs.Liveness.Recoded
import BlockFlow.Proofs.Numbering.Ledger
import BlockFlow.Proofs.Numbering.Ordering
import BlockFlow.Proofs.Solver.Renaming

/-!
# Values are known by their ids

Two procedures that differ in what they call their values, and in which ids they give them, are the
same to both analyses as long as different values keep different ids. A table of the one holds
under the new id of a value what a table of the other holds under the old one, so both scans ask for
the same numbers and write the same expression texts; and the summaries of the blocks are those of
the other procedure with their facts renamed. The names in the arena are not looked at, except to
write the texts of instructions.
-/

namespace BlockFlow

/-- The instruction with other ids for its values. -/
def Instruction.rename (ρ : ValueId → ValueId) (inst : Instruction) : Instruction :=
  { inst with operands := inst.operands.map ρ, result := ρ inst.result }

/-- The effect with other ids for its values. -/
def Effect.rename (ρ : ValueId → ValueId) : Effect → Effect
  | .load address => .load (ρ address)
  | .store value address => .store (ρ value) (ρ address)
  | .compute op lhs rhs => .compute op (ρ lhs) (ρ rhs)
  | .none => .none

/-- What an instruction does is renamed with it. -/
theorem Instruction.effect_rename (ρ : ValueId → ValueId) (inst : Instruction) :
    (inst.rename ρ).effect = inst.effect.rename ρ := by
  obtain ⟨opcode, operands, result⟩ := inst
  unfold rename effect
  cases opcode <;> rcases operands with _ | ⟨a, _ | ⟨b, rest⟩⟩ <;> rfl

/-- The second procedure has the blocks, edges and opcodes of the first one, and other ids for the
operands and results. Its name and its arena may be any. -/
def Procedure.RenamedBy (ρ : ValueId → ValueId) (p q : Procedure) : Prop :=
  p.RecodedBy (·.map (Instruction.rename ρ)) q

variable {ρ : ValueId → ValueId} {p q : Procedure}

/-! ### Numbering -/

namespace Numbering

/-- The site with other ids for the values of its block. -/
def renameSite (ρ : ValueId → ValueId) (site : Site) : Site where
  block := site.block.recode (·.map (Instruction.rename ρ))
  instruction := site.instruction.rename ρ

/-- The sites of a renamed procedure are the renamed sites. -/
theorem sites_renamed (h : p.RenamedBy ρ q) : q.sites = p.sites.map (renameSite ρ) := by
  have hblock (b : BasicBlock) : (b.recode (·.map (Instruction.rename ρ))).sites =
      b.sites.map (renameSite ρ) := by
    simp [BasicBlock.sites, BasicBlock.recode, renameSite, Function.comp_def]
  rw [Procedure.sites, Procedure.RecodedBy.toList_blocks h, List.flatMap_map, Procedure.sites,
    List.map_flatMap]
  simp only [hblock]

/-- The second table holds under the new ids what the first one holds under the old ones. -/
structure Table.RenamedTo (ρ : ValueId → ValueId) (t t' : Table) : Prop where
  next : t'.next = t.next
  value : ∀ v, t'.lookupValue (ρ v) = t.lookupValue v
  expression : ∀ text, t'.lookupExpression text = t.lookupExpression text

namespace Table.RenamedTo

theorem empty (ρ : ValueId → ValueId) : RenamedTo ρ .empty .empty := by
  constructor <;> simp [lookupValue, Table.empty]

variable (hρ : Function.Injective ρ) {t t' : Table}

include hρ

/-- A request for a value under its new id has the same answer. -/
theorem numberValue (h : t.RenamedTo ρ t') (v : ValueId) :
    (t'.numberValue (ρ v)).2 = (t.numberValue v).2 ∧
      (t.numberValue v).1.RenamedTo ρ (t'.numberValue (ρ v)).1 := by
  have hvalue := h.value v
  have hanswer : (t'.numberValue (ρ v)).2 = (t.numberValue v).2 ∧
      (t'.numberValue (ρ v)).1.next = (t.numberValue v).1.next := by
    cases hv : t.lookupValue v with
    | some k => simp [numberValue_of_some _ hv, numberValue_of_some _ (hvalue.trans hv), h.next]
    | none => simp [numberValue_of_none _ hv, numberValue_of_none _ (hvalue.trans hv), h.next]
  refine ⟨hanswer.1, hanswer.2, ?_, ?_⟩
  · intro w
    rw [lookupValue_numberValue, lookupValue_numberValue, hanswer.1, h.value]
    simp only [hρ.eq_iff]
  · intro text
    rw [lookupExpression_numberValue, lookupExpression_numberValue, h.expression]

/-- An alias under the new id of its value is the same alias. -/
theorem aliasValue (h : t.RenamedTo ρ t') (v : ValueId) (number : Number) :
    (t.aliasValue v number).1.RenamedTo ρ (t'.aliasValue (ρ v) number).1 := by
  refine ⟨h.next, ?_, h.expression⟩
  intro w
  rw [lookupValue_aliasValue, lookupValue_aliasValue, h.value]
  simp only [hρ.eq_iff]

omit hρ in
/-- A request for an expression has the same answer. -/
theorem numberExpression (h : t.RenamedTo ρ t') (text : String) :
    (t'.numberExpression text).2 = (t.numberExpression text).2 ∧
      (t.numberExpression text).1.RenamedTo ρ (t'.numberExpression text).1 := by
  have hexpression := h.expression text
  have hanswer : (t'.numberExpression text).2 = (t.numberExpression text).2 ∧
      (t'.numberExpression text).1.next = (t.numberExpression text).1.next := by
    cases ht : t.lookupExpression text with
    | some k =>
      simp [numberExpression_of_some _ ht, numberExpression_of_some _ (hexpression.trans ht),
        h.next]
    | none =>
      simp [numberExpression_of_none _ ht, numberExpression_of_none _ (hexpression.trans ht),
        h.next]
  refine ⟨hanswer.1, hanswer.2, ?_, ?_⟩
  · intro w
    rw [lookupValue_numberExpression, lookupValue_numberExpression, h.value]
  · intro other
    rw [lookupExpression_numberExpression, lookupExpression_numberExpression, hanswer.1,
      h.expression]

/-- A renamed effect is numbered as the effect is. -/
theorem assign (h : t.RenamedTo ρ t') (ordered : Bool) (result : ValueId) (effect : Effect) :
    (t'.assign ordered (ρ result) (effect.rename ρ)).2 = (t.assign ordered result effect).2 ∧
      (t.assign ordered result effect).1.RenamedTo ρ
        (t'.assign ordered (ρ result) (effect.rename ρ)).1 := by
  cases effect with
  | load address =>
    obtain ⟨hanswer, h₁⟩ := h.numberValue hρ address
    simp only [Table.assign, Effect.rename, hanswer, true_and]
    exact h₁.aliasValue hρ result _
  | store value address =>
    obtain ⟨hanswer, h₁⟩ := h.numberValue hρ value
    simp only [Table.assign, Effect.rename, hanswer, true_and]
    exact h₁.aliasValue hρ address _
  | compute op lhs rhs =>
    obtain ⟨hleft, h₁⟩ := h.numberValue hρ lhs
    obtain ⟨hright, h₂⟩ := h₁.numberValue hρ rhs
    -- equal numbers make equal keys, whatever the operands are called
    obtain ⟨hanswer, h₃⟩ := h₂.numberExpression (Expression.ofOperation op
      (t.numberValue lhs).2.number ((t.numberValue lhs).1.numberValue rhs).2.number ordered).key
    simp only [Table.assign, Effect.rename, hleft, hright, hanswer, true_and]
    exact h₃.aliasValue hρ result _
  | none => exact ⟨rfl, h⟩

end Table.RenamedTo

/-- The step with other ids for the values of its site. -/
def Step.rename (ρ : ValueId → ValueId) (step : Step) : Step :=
  { step with site := renameSite ρ step.site }

/-- A scan of renamed sites makes the renamed steps. -/
theorem scan_rename (hρ : Function.Injective ρ) (ordered : Bool) {t t' : Table}
    (h : t.RenamedTo ρ t') (sites : List Site) :
    (scan ordered t' (sites.map (renameSite ρ))).2 =
      (scan ordered t sites).2.map (Step.rename ρ) := by
  induction sites generalizing t t' with
  | nil => rfl
  | cons site sites ih =>
    obtain ⟨hassignment, hnext⟩ :=
      h.assign hρ ordered site.instruction.result site.instruction.effect
    rw [← Instruction.effect_rename] at hassignment hnext
    have hstep := congrArg (Step.mk (renameSite ρ site)) hassignment
    exact List.cons_eq_cons.mpr ⟨hstep, ih hnext⟩

/-- The records agree on the block, the numbers and the flag, and their results are related. -/
structure Record.RenamedTo (ρ : ValueId → ValueId) (r r' : Record) : Prop where
  block : r'.block = r.block
  result : r'.result = ρ r.result
  destination : r'.destination = r.destination
  source : r'.source = r.source
  redundant : r'.redundant = r.redundant

/-- A renamed step has a record where the step has one, and it differs in the result and the text
only. -/
theorem Step.record?_rename (ρ : ValueId → ValueId) (p q : Procedure) (step : Step) :
    Option.Rel (Record.RenamedTo ρ) (step.record? p) ((step.rename ρ).record? q) := by
  obtain ⟨site, assignment⟩ := step
  cases assignment with
  | none => exact .none
  | some a => exact .some ⟨rfl, rfl, rfl, rfl, rfl⟩

/-- The records of a renamed procedure are those of the procedure but for results and texts. -/
theorem records_renamed (hρ : Function.Injective ρ) (h : p.RenamedBy ρ q) (ordered : Bool) :
    List.Forall₂ (Record.RenamedTo ρ) (number ordered p).records (number ordered q).records := by
  have hsteps : List.Forall₂ (fun step step' ↦ step' = Step.rename ρ step)
      (scan ordered .empty p.sites).2 (scan ordered .empty q.sites).2 := by
    rw [sites_renamed h, scan_rename hρ ordered (.empty ρ), List.forall₂_map_right_iff,
      List.forall₂_same]
    exact fun _ _ ↦ rfl
  refine List.rel_filterMap ?_ hsteps
  rintro step _ rfl
  exact step.record?_rename ρ p q

end Numbering

/-! ### Liveness -/

namespace Liveness

/-- A renamed effect adds its renamed variable to a renamed summary. -/
theorem extend_rename (hρ : Function.Injective ρ) (s : Equation ValueId) (effect : Effect) :
    extend (s.rename ρ) (effect.rename ρ) = (extend s effect).rename ρ := by
  cases effect with
  | load address =>
    have hkill : ρ address ∈ (s.rename ρ).kill ↔ address ∈ s.kill := FactSet.apply_mem_image hρ
    simp only [extend, Effect.rename, hkill]
    split
    · rfl
    · simp only [Equation.rename, FactSet.image_insert]
  | store value address => simp only [extend, Effect.rename, Equation.rename, FactSet.image_insert]
  | compute op lhs rhs => rfl
  | none => rfl

/-- The summary of a renamed block is the renamed summary. -/
theorem summary_rename (hρ : Function.Injective ρ) (b : BasicBlock) :
    summary (b.recode (·.map (Instruction.rename ρ))) = (summary b).rename ρ := by
  have hstart : Equation.rename ρ ({} : Equation ValueId) = {} := by
    simp [Equation.rename]
  rw [summary, summary, BasicBlock.recode, Array.toList_map, List.foldl_map, ← hstart]
  refine List.foldl_hom (Equation.rename ρ) fun s inst ↦ ?_
  rw [Instruction.effect_rename, extend_rename hρ]

/-- The entries are of the same block, and the sets of the second are the images of those of the
first. -/
structure BlockReport.RenamedTo (ρ : ValueId → ValueId) (b b' : BlockReport) : Prop where
  block : b'.block = b.block
  name : b'.name = b.name
  ueVar : b'.ueVar = b.ueVar.image ρ
  varKill : b'.varKill = b.varKill.image ρ
  liveOut : b'.liveOut = b.liveOut.image ρ

/-- The reports are of as many sweeps, and the sets of the second are the images of those of the
first. -/
structure Report.RenamedTo (ρ : ValueId → ValueId) (r r' : Report) : Prop where
  iterations : r'.iterations = r.iterations
  blocks : List.Forall₂ (BlockReport.RenamedTo ρ) r.blocks r'.blocks

/-- The report of renamed sets is renamed. -/
theorem reportFrom_renamed {n : Nat} (h : p.RenamedBy ρ q) (eqs : Equations ValueId n)
    (out : FactSets ValueId n) (iterations : Nat) :
    (reportFrom p eqs out iterations).RenamedTo ρ
      (reportFrom q (eqs.rename ρ) (out.rename ρ) iterations) := by
  refine ⟨rfl, ?_⟩
  simp only [reportFrom, Equations.rename, FactSets.rename, Vector.toList_map,
    Procedure.RecodedBy.toList_blocks h, List.zip_map, List.map_map]
  rw [List.forall₂_map_left_iff, List.forall₂_map_right_iff, List.forall₂_same]
  exact fun _ _ ↦ ⟨rfl, rfl, rfl, rfl, rfl⟩

/-- The analysis of a renamed procedure fails as that of the procedure does, or reports the renamed
sets. -/
theorem analyze_renamed (hρ : Function.Injective ρ) (h : p.RenamedBy ρ q) (solver : Solver) :
    Alike (Report.RenamedTo ρ) (analyze solver p) (analyze solver q) := by
  have hplaced := Procedure.RecodedBy.misplaced?_eq h
  cases hp : misplaced? p with
  | some position =>
    rw [analyze_of_misplaced hp, analyze_of_misplaced (hplaced.trans hp)]
    exact .error _
  | none =>
    have hrows : (Equations.rename ρ (summaries p)).toList = q.blocks.toList.map summary := by
      rw [Equations.rename, Vector.toList_map, toList_summaries,
        Procedure.RecodedBy.toList_blocks h, List.map_map, List.map_map]
      exact (List.map_congr_left fun b _ ↦ summary_rename hρ b).symm
    rw [analyze_of_rows hp (toList_summaries p), analyze_of_rows (hplaced.trans hp) hrows,
      Procedure.RecodedBy.graph_eq h, Solver.solve_rename hρ]
    cases solver.solve p.graph (summaries p) with
    | error error => exact .error error
    | ok solution => exact .ok (reportFrom_renamed h (summaries p) solution.out _)

end Liveness

/-- For every injective map of ids and two procedures of which the second has the blocks, edges and
opcodes of the first and the images of its operands and results, whatever names the values have:
numbering each from an empty table finds the same numbers, sources and flags for the same
instructions; and analyzing each under the same solver gives the same error, or as many sweeps and
sets of which those of the second procedure are the images. -/
theorem known_by_id (ρ : ValueId → ValueId) (hρ : Function.Injective ρ) (p q : Procedure)
    (h : p.RenamedBy ρ q) :
    (∀ ordered, List.Forall₂ (Numbering.Record.RenamedTo ρ)
      (Numbering.number ordered p).records (Numbering.number ordered q).records) ∧
    ∀ solver, Alike (Liveness.Report.RenamedTo ρ)
      (Liveness.analyze solver p) (Liveness.analyze solver q) :=
  ⟨Numbering.records_renamed hρ h, Liveness.analyze_renamed hρ h⟩

/-- A loop that sums what it loads, with a sum that is computed twice. -/
def summing : Procedure where
  name := "summing"
  values := #[⟨some "x", none⟩, ⟨some "total", none⟩]
  blocks := #[
    { id := 0, name := "head", successors := [1], predecessors := [1]
      instructions := #[⟨.load, [0], 2⟩, ⟨.load, [1], 3⟩, ⟨.add, [2, 3], 4⟩] },
    { id := 1, name := "body", successors := [0], predecessors := [0]
      instructions := #[⟨.add, [2, 3], 5⟩, ⟨.store, [5, 1], 6⟩, ⟨.other "br", [5], 7⟩] }]

/-- The same loop with two ids exchanged, and one name for all values. -/
def summingRenamed : Procedure where
  name := "renamed"
  values := #[⟨some "x", none⟩, ⟨some "x", none⟩, ⟨some "x", none⟩]
  blocks := #[
    { id := 0, name := "head", successors := [1], predecessors := [1]
      instructions := #[⟨.load, [5], 2⟩, ⟨.load, [1], 3⟩, ⟨.add, [2, 3], 4⟩] },
    { id := 1, name := "body", successors := [0], predecessors := [0]
      instructions := #[⟨.add, [2, 3], 0⟩, ⟨.store, [0, 1], 6⟩, ⟨.other "br", [0], 7⟩] }]

/-- The redundant sum is found in both loops, and the variables that are live after the head are
those of the first loop under their new ids. -/
theorem summing_known_by_id :
    summing.RenamedBy (Equiv.swap 0 5) summingRenamed ∧
    (Numbering.number false summing).redundant.map Numbering.Record.result = [5] ∧
    List.Forall₂ (Numbering.Record.RenamedTo (Equiv.swap 0 5))
      (Numbering.number false summing).records (Numbering.number false summingRenamed).records ∧
    ∃ report report', Liveness.analyze ⟨.worklist, 5⟩ summing = .ok report ∧
      Liveness.analyze ⟨.worklist, 5⟩ summingRenamed = .ok report' ∧
      report.blocks.map (·.liveOut.toList) = [[0], [0, 1]] ∧
      report.RenamedTo (Equiv.swap 0 5) report' := by
  have hrenamed : summing.RenamedBy (Equiv.swap 0 5) summingRenamed := by
    unfold Procedure.RenamedBy Procedure.RecodedBy
    decide +kernel
  obtain ⟨hrecords, hreports⟩ :=
    known_by_id (Equiv.swap 0 5) (Equiv.swap 0 5).injective summing summingRenamed hrenamed
  have hlive : (Liveness.analyze ⟨.worklist, 5⟩ summing).map (·.blocks.map (·.liveOut.toList)) =
      .ok [[0], [0, 1]] := by
    decide +kernel
  obtain ⟨report, hreport, hsets⟩ := map_eq_ok_iff.mp hlive
  have halike := hreports ⟨.worklist, 5⟩
  refine ⟨hrenamed, by decide +kernel, hrecords false, report, ?_⟩
  rw [hreport] at halike ⊢
  cases hreport' : Liveness.analyze ⟨.worklist, 5⟩ summingRenamed with
  | error error =>
    rw [hreport'] at halike
    cases halike
  | ok report' =>
    rw [hreport'] at halike
    cases halike with
    | ok h => exact ⟨report', rfl, rfl, hsets, h⟩

end BlockFlow
