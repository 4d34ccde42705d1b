import BlockFlow.Proofs.Description.Order
import BlockFlow.Proofs.Numbering.Ledger
import BlockFlow.Proofs.Numbering.Ordering
import BlockFlow.Proofs.Numbering.Substitution

/-!
# Numbering a procedure again

In code that is in order and has no stores a value is numbered once: no instruction has a result
that was numbered or used in front of it. So the table of a scan only grows, and at the end it still
holds every number that was found on the way. Main statement: a second scan of such code on the
final table finds all of them again. It changes nothing in the table, and it reports the same
numbers, every expression now being found.
-/

namespace BlockFlow.Numbering

open Symbolic (usedOperands usedOperands_subset)

/-! ### Tables that grow -/

namespace Table

/-- The second table holds every number that the first one holds. -/
structure GrowsTo (t t' : Table) : Prop where
  value : ∀ v k, t.lookupValue v = some k → t'.lookupValue v = some k
  expression : ∀ text k, t.lookupExpression text = some k → t'.lookupExpression text = some k

namespace GrowsTo

theorem refl (t : Table) : t.GrowsTo t := ⟨fun _ _ h ↦ h, fun _ _ h ↦ h⟩

theorem trans {t₁ t₂ t₃ : Table} (h : t₁.GrowsTo t₂) (h' : t₂.GrowsTo t₃) : t₁.GrowsTo t₃ :=
  ⟨fun v k hk ↦ h'.value v k (h.value v k hk), fun x k hk ↦ h'.expression x k (h.expression x k hk)⟩

end GrowsTo

variable (t : Table)

/-- A request for a value loses no number. -/
theorem growsTo_numberValue (v : ValueId) : t.GrowsTo (t.numberValue v).1 := by
  refine ⟨?_, fun text k hk ↦ (t.lookupExpression_numberValue v text).trans hk⟩
  intro w k hw
  rw [lookupValue_numberValue]
  split
  · next heq =>
    subst heq
    rw [numberValue_of_some t hw]
  · exact hw

/-- A request for an expression loses no number. -/
theorem growsTo_numberExpression (text : String) : t.GrowsTo (t.numberExpression text).1 := by
  refine ⟨fun v k hk ↦ (t.lookupValue_numberExpression text v).trans hk, ?_⟩
  intro other k hk
  exact lookupExpression_answer_of_some hk (.expression text)

/-- An alias loses no number where its value has none. -/
theorem growsTo_aliasValue {v : ValueId} (h : t.lookupValue v = none) (number : Number) :
    t.GrowsTo (t.aliasValue v number).1 := by
  refine ⟨?_, fun _ _ hk ↦ hk⟩
  intro w k hw
  rw [lookupValue_aliasValue, if_neg]
  · exact hw
  · rintro rfl
    rw [h] at hw
    cases hw

/-- An alias that repeats the number of its value changes nothing. -/
theorem aliasValue_of_some {v : ValueId} {k : Number} (h : t.lookupValue v = some k) :
    (t.aliasValue v k).1 = t := by
  have hvalues : t.values.insert v k = t.values := by
    apply Std.ExtTreeMap.ext_getElem?
    intro w
    rw [Std.ExtTreeMap.getElem?_insert]
    split
    · next heq =>
      rw [← Std.LawfulEqCmp.eq_of_compare heq]
      exact h.symm
    · rfl
  rw [aliasValue, hvalues]

/-- An effect loses no number where its instruction has a new result and is no store. -/
theorem growsTo_assign (ordered : Bool) {result : ValueId} {effect : Effect}
    (hresult : t.lookupValue result = none) (hoperands : result ∉ usedOperands effect)
    (hstore : ∀ value address, effect ≠ .store value address) :
    t.GrowsTo (t.assign ordered result effect).1 := by
  cases effect with
  | load address =>
    have hnew : (t.numberValue address).1.lookupValue result = none := by
      rw [lookupValue_numberValue, if_neg, hresult]
      rintro rfl
      simp [usedOperands] at hoperands
    exact (t.growsTo_numberValue address).trans (growsTo_aliasValue _ hnew _)
  | store value address => exact absurd rfl (hstore value address)
  | compute op lhs rhs =>
    rw [assign]
    dsimp only
    generalize (Expression.ofOperation _ _ _ _).key = key
    have hnew : ((((t.numberValue lhs).1.numberValue rhs).1).numberExpression key).1.lookupValue
        result = none := by
      simp only [usedOperands, List.mem_cons, List.not_mem_nil, or_false, not_or] at hoperands
      rw [lookupValue_numberExpression, lookupValue_numberValue, if_neg (Ne.symm hoperands.2),
        lookupValue_numberValue, if_neg (Ne.symm hoperands.1), hresult]
    have hvalues := (t.growsTo_numberValue lhs).trans (growsTo_numberValue _ rhs)
    exact (hvalues.trans (growsTo_numberExpression _ key)).trans (growsTo_aliasValue _ hnew _)
  | none => exact .refl t

end Table

/-! ### What a second scan finds -/

/-- Whether the source is an expression, which a table can find again. -/
def Source.isExpression : Source → Bool
  | .copy _ => false
  | .expression _ => true

/-- The assignment when its instruction is numbered again. -/
def Assignment.again (a : Assignment) : Assignment :=
  { a with redundant := a.redundant || a.source.isExpression }

/-- The record when its instruction is numbered again: every operator is redundant, and all else is
as it was. -/
def Record.again (r : Record) : Record :=
  { r with redundant := r.redundant || r.source.isExpression }

/-- The step when its instruction is numbered again. -/
def Step.again (step : Step) : Step := { step with assignment := step.assignment.map .again }

/-- The record of a step that is taken again. -/
theorem Step.record?_again (p : Procedure) (step : Step) :
    step.again.record? p = (step.record? p).map Record.again := by
  obtain ⟨site, _ | a⟩ := step
  · rfl
  · rfl

/-- An effect on a table that holds all that it was numbered with finds it there. -/
theorem Table.assign_again (ordered : Bool) {t later : Table} {result : ValueId} {effect : Effect}
    (h : (t.assign ordered result effect).1.GrowsTo later)
    (hoperands : result ∉ usedOperands effect) :
    later.assign ordered result effect =
      (later, (t.assign ordered result effect).2.map Assignment.again) := by
  cases effect with
  | load address =>
    have hne : result ≠ address := by simpa [usedOperands] using hoperands
    have hresult : later.lookupValue result = some (t.numberValue address).2.number :=
      h.value _ _ (by simp [assign, lookupValue_aliasValue])
    have haddress : later.lookupValue address = some (t.numberValue address).2.number :=
      h.value _ _ (by simp [assign, lookupValue_aliasValue, lookupValue_numberValue, hne])
    simp [assign, numberValue_of_some later haddress, later.aliasValue_of_some hresult,
      Assignment.again, Source.isExpression]
  | store value address =>
    have haddress : later.lookupValue address = some (t.numberValue value).2.number :=
      h.value _ _ (by simp [assign, lookupValue_aliasValue])
    have hvalue : later.lookupValue value = some (t.numberValue value).2.number :=
      h.value _ _ (by simp [assign, lookupValue_aliasValue, lookupValue_numberValue])
    simp [assign, numberValue_of_some later hvalue, later.aliasValue_of_some haddress,
      Assignment.again, Source.isExpression]
  | compute op lhs rhs =>
    simp only [usedOperands, List.mem_cons, List.not_mem_nil, or_false, not_or] at hoperands
    rw [assign] at h
    dsimp only at h
    let left := t.numberValue lhs
    let right := left.1.numberValue rhs
    let key := (Expression.ofOperation op left.2.number right.2.number ordered).key
    let computed := right.1.numberExpression key
    have hlhs : later.lookupValue lhs = some left.2.number := by
      apply h.value
      rw [lookupValue_aliasValue, if_neg hoperands.1, lookupValue_numberExpression]
      exact (left.1.growsTo_numberValue rhs).value _ _ (by simp [left, lookupValue_numberValue])
    have hrhs : later.lookupValue rhs = some right.2.number := by
      apply h.value
      rw [lookupValue_aliasValue, if_neg hoperands.2, lookupValue_numberExpression,
        lookupValue_numberValue, if_pos rfl]
    have hkey : later.lookupExpression key = some computed.2.number := by
      apply h.expression
      exact (right.1.lookupExpression_numberExpression key key).trans (if_pos rfl)
    have hresult : later.lookupValue result = some computed.2.number := by
      apply h.value
      rw [lookupValue_aliasValue, if_pos rfl]
    rw [assign, numberValue_of_some later hlhs]
    dsimp only
    rw [numberValue_of_some later hrhs]
    dsimp only
    rw [numberExpression_of_some later hkey]
    dsimp only
    rw [later.aliasValue_of_some hresult]
    simp [assign, Assignment.again, Source.isExpression, left, right, key, computed]
  | none => rfl

/-! ### Scans of code in order -/

/-- The code that follows a table has no stores and is in order, and its results are younger than
all values that have numbers. -/
structure Table.Precedes (t : Table) (sites : List Site) : Prop where
  inOrder : InOrder (sites.map Site.instruction)
  fresh : ∀ v, (t.lookupValue v).isSome = true → ∀ site ∈ sites, v < site.instruction.result
  noStore : ∀ site ∈ sites, site.instruction.opcode ≠ .store

/-- An effect touches the operands that it depends on, and the result. -/
theorem mem_touched {result v : ValueId} {effect : Effect} (h : v ∈ touched result effect) :
    v = result ∨ v ∈ usedOperands effect := by
  cases effect with
  | load address => simpa [touched, usedOperands, or_comm] using h
  | store value address => exact .inr h
  | compute op lhs rhs => simpa [touched, usedOperands, or_comm, or_assoc, or_left_comm] using h
  | none => exact .inr h

/-- Only a store has the effect of one. -/
theorem effect_ne_store {inst : Instruction} (h : inst.opcode ≠ .store) (value address : ValueId) :
    inst.effect ≠ .store value address := by
  obtain ⟨opcode, operands, result⟩ := inst
  unfold Instruction.effect
  cases opcode <;> rcases operands with _ | ⟨a, _ | ⟨b, rest⟩⟩ <;> simp_all

namespace Table.Precedes

variable {t : Table} {site : Site} {sites : List Site}

/-- The effect of the first instruction depends on older values than its result. -/
theorem lt_result (h : t.Precedes (site :: sites)) {v : ValueId}
    (hv : v ∈ usedOperands site.instruction.effect) : v < site.instruction.result :=
  h.inOrder.operands _ List.mem_cons_self v (usedOperands_subset _ hv)

/-- The first instruction does not depend on its own result. -/
theorem result_notMem (h : t.Precedes (site :: sites)) :
    site.instruction.result ∉ usedOperands site.instruction.effect :=
  fun hmem ↦ Nat.lt_irrefl _ (h.lt_result hmem)

/-- The first instruction loses no number. -/
theorem growsTo_assign (h : t.Precedes (site :: sites)) (ordered : Bool) :
    t.GrowsTo (t.assign ordered site.instruction.result site.instruction.effect).1 := by
  refine t.growsTo_assign ordered ?_ h.result_notMem ?_
  · rw [← Option.not_isSome_iff_eq_none]
    exact fun hsome ↦ Nat.lt_irrefl _ (h.fresh _ hsome site List.mem_cons_self)
  · exact effect_ne_store (h.noStore site List.mem_cons_self)

/-- The code behind the first instruction comes after the values that it touches. -/
theorem assign (h : t.Precedes (site :: sites)) (ordered : Bool) :
    (t.assign ordered site.instruction.result site.instruction.effect).1.Precedes sites := by
  refine ⟨h.inOrder.sublist (List.sublist_cons_self _ _), ?_,
    fun s hs ↦ h.noStore s (List.mem_cons_of_mem site hs)⟩
  intro v hv s hs
  have hresult : site.instruction.result < s.instruction.result :=
    List.rel_of_pairwise_cons h.inOrder.ascending (List.mem_map_of_mem hs)
  rcases (t.isSome_lookupValue_assign ordered _ _ v).mp hv with htouched | hold
  · rcases mem_touched htouched with rfl | hused
    · exact hresult
    · exact Nat.lt_trans (h.lt_result hused) hresult
  · exact h.fresh v hold s (List.mem_cons_of_mem site hs)

/-- A scan loses no number. -/
theorem growsTo_scan (h : t.Precedes sites) (ordered : Bool) :
    t.GrowsTo (scan ordered t sites).1 := by
  induction sites generalizing t with
  | nil => exact .refl t
  | cons site sites ih => exact (h.growsTo_assign ordered).trans (ih (h.assign ordered))

/-- A scan of the same code on a table that holds all that the scan leaves finds it there. -/
theorem scan_again (h : t.Precedes sites) (ordered : Bool) {later : Table}
    (hlater : (scan ordered t sites).1.GrowsTo later) :
    scan ordered later sites = (later, (scan ordered t sites).2.map Step.again) := by
  induction sites generalizing t with
  | nil => rfl
  | cons site sites ih =>
    have hrest := h.assign ordered
    -- the numbers of the first instruction survive the rest of the scan
    have hfirst := Table.assign_again ordered ((hrest.growsTo_scan ordered).trans hlater)
      h.result_notMem
    rw [scan, hfirst]
    dsimp only
    rw [ih hrest hlater]
    rfl

/-- Numbering a procedure again finds all that it was numbered with. -/
theorem numberInto_again {p : Procedure} (h : t.Precedes p.sites) (ordered : Bool) :
    numberInto ordered p (numberInto ordered p t).1 = ((numberInto ordered p t).1,
      { procedure := p.name, records := (numberInto ordered p t).2.records.map Record.again }) := by
  have hagain := h.scan_again ordered (.refl _)
  have hrecords : ((scan ordered t p.sites).2.map Step.again).filterMap (Step.record? p) =
      ((scan ordered t p.sites).2.filterMap (Step.record? p)).map Record.again := by
    rw [List.filterMap_map, List.map_filterMap]
    exact List.filterMap_congr fun step _ ↦ step.record?_again p
  simp only [numberInto, hagain, hrecords]

end Table.Precedes

/-- Numbering a procedure that comes from a description and has no stores a second time, on the
table that the first time left and with operands put in order as before or not: the table stays as
it is, and the records are the same except that every operator is now redundant. -/
theorem renumbering_finds_all (d : ProcedureDesc) (p : Procedure) (ordered : Bool)
    (hp : d.toProcedure = .ok p)
    (hstores : ∀ b ∈ p.blocks, ∀ inst ∈ b.instructions, inst.opcode ≠ .store) :
    numberInto ordered p (numberInto ordered p .empty).1 = ((numberInto ordered p .empty).1,
      { procedure := p.name
        records := (numberInto ordered p .empty).2.records.map Record.again }) := by
  refine Table.Precedes.numberInto_again ⟨?_, ?_, ?_⟩ ordered
  · rw [Procedure.map_instruction_sites]
    exact ProcedureDesc.inOrder_of_toProcedure hp
  · intro v hv
    simp [Table.empty, Table.lookupValue] at hv
  · intro site hsite
    obtain ⟨b, hb, hmem⟩ := List.mem_flatMap.mp hsite
    obtain ⟨inst, hinst, rfl⟩ := List.mem_map.mp hmem
    exact hstores b (by simpa using hb) inst (by simpa using hinst)

/-- A loop in which a variable is loaded twice under one name, and a sum computed once each way. -/
def polling : ProcedureDesc where
  name := "polling"
  blocks := [
    { name := "head", successors := ["body"]
      instructions := [{ opcode := "load", operands := ["port"], name := some "x" },
        { opcode := "add", operands := ["x", "y"] }] },
    { name := "body", successors := ["head"]
      instructions := [{ opcode := "load", operands := ["port"], name := some "x" },
        { opcode := "add", operands := ["y", "x"] }, { opcode := "br", operands := ["x"] }] }]

/-- The procedure that polls. -/
def pollingProcedure : Procedure where
  name := "polling"
  values := #[⟨some "port", none⟩, ⟨some "x", some (0, 0)⟩, ⟨some "y", none⟩, ⟨none, some (0, 1)⟩,
    ⟨some "x", some (1, 0)⟩, ⟨none, some (1, 1)⟩, ⟨none, some (1, 2)⟩]
  blocks := #[
    { id := 0, name := "head", successors := [1], predecessors := [1]
      instructions := #[⟨.load, [0], 1⟩, ⟨.add, [1, 2], 3⟩] },
    { id := 1, name := "body", successors := [0], predecessors := [0]
      instructions := #[⟨.load, [0], 4⟩, ⟨.add, [2, 4], 5⟩, ⟨.other "br", [4], 6⟩] }]

/-- The second time both sums are redundant, where only one of them was, and none without operands
put in order; no number is issued. -/
theorem polling_finds_all :
    polling.toProcedure = .ok pollingProcedure ∧
    (∀ ordered, numberInto ordered pollingProcedure (numberInto ordered pollingProcedure .empty).1 =
      ((numberInto ordered pollingProcedure .empty).1,
        { procedure := "polling"
          records := (numberInto ordered pollingProcedure .empty).2.records.map Record.again })) ∧
    (numberInto true pollingProcedure .empty).2.records.map Record.redundant =
      [false, false, false, true] ∧
    (numberInto false pollingProcedure .empty).2.records.map Record.redundant =
      [false, false, false, false] ∧
    ((numberInto false pollingProcedure .empty).2.records.map Record.again).map Record.redundant =
      [false, true, false, true] := by
  have hp : polling.toProcedure = .ok pollingProcedure := by decide +kernel
  have hstores : ∀ b ∈ pollingProcedure.blocks, ∀ inst ∈ b.instructions,
      inst.opcode ≠ .store := by
    decide
  refine ⟨hp, fun ordered ↦ renumbering_finds_all polling pollingProcedure ordered hp hstores,
    by decide +kernel, by decide +kernel, by decide +kernel⟩

end BlockFlow.Numbering
