import BlockFlow.Proofs.Numbering.Repeats
import BlockFlow.Proofs.Procedure.Words

/-!
# Tables of words

A table counts in natural numbers. Where the counter is a word of thirty-two bits it goes back to
zero after the largest word, and from then on numbers are issued a second time. Here is the table
with such a counter. Main statement: as long as the counter has not gone back, a word table answers
what the table answers, and every scan on it reports the same. So what is known of tables is known
of word tables within this limit, in particular that redundant records are those that repeat a key;
and beyond it, two different keys can have the same number.
-/

namespace BlockFlow.Numbering

/-! ### Word tables -/

/-- The answer of a word table. -/
structure WordLookup where
  number : UInt32
  existed : Bool

/-- A table whose numbers are words. -/
structure WordTable where
  next : UInt32 := 1
  values : Std.ExtTreeMap ValueId UInt32 compare := ∅
  expressions : Std.ExtTreeMap String UInt32 compare := ∅

/-- A request to a word table. -/
inductive WordRequest where
  | value (v : ValueId)
  | expression (text : String)
  | renumber (v : ValueId) (number : UInt32)

/-- A call to a word table: a request, or to be emptied. -/
inductive WordCall where
  | request (r : WordRequest)
  | reset

namespace WordTable

/-- The number of a value, a new one if it has none. -/
def numberValue (t : WordTable) (value : ValueId) : WordTable × WordLookup :=
  match t.values[value]? with
  | some number => (t, { number, existed := true })
  | none =>
    ({ t with next := t.next + 1, values := t.values.insert value t.next },
      { number := t.next, existed := false })

/-- Gives a value a number, whatever it had before. The counter stays. -/
def aliasValue (t : WordTable) (value : ValueId) (number : UInt32) : WordTable × WordLookup :=
  ({ t with values := t.values.insert value number },
    { number, existed := t.values.contains value })

/-- The number of an expression text, a new one if it has none. -/
def numberExpression (t : WordTable) (text : String) : WordTable × WordLookup :=
  match t.expressions[text]? with
  | some number => (t, { number, existed := true })
  | none =>
    ({ t with next := t.next + 1, expressions := t.expressions.insert text t.next },
      { number := t.next, existed := false })

/-- What a word table makes of a request. -/
def answer (t : WordTable) : WordRequest → WordTable × WordLookup
  | .value v => t.numberValue v
  | .expression text => t.numberExpression text
  | .renumber v number => t.aliasValue v number

/-- Carries out a call. -/
def step (t : WordTable) : WordCall → WordTable
  | .request r => (t.answer r).1
  | .reset => {}

/-- Carries out calls in order. -/
def run (t : WordTable) (calls : List WordCall) : WordTable := calls.foldl step t

/-- Numbers one effect, whose instruction has the given result. -/
def assign (ordered : Bool) (t : WordTable) (result : ValueId) :
    Effect → WordTable × Option Assignment
  | .load address =>
    let (t, loaded) := t.numberValue address
    let (t, _) := t.aliasValue result loaded.number
    (t, some ⟨loaded.number.toNat, .copy loaded.number.toNat, false⟩)
  | .store value address =>
    let (t, stored) := t.numberValue value
    let (t, _) := t.aliasValue address stored.number
    (t, some ⟨stored.number.toNat, .copy stored.number.toNat, false⟩)
  | .compute op lhs rhs =>
    let (t, left) := t.numberValue lhs
    let (t, right) := t.numberValue rhs
    let key := (Expression.ofOperation op left.number.toNat right.number.toNat ordered).key
    let (t, computed) := t.numberExpression key
    let (t, _) := t.aliasValue result computed.number
    (t, some ⟨computed.number.toNat, .expression key, computed.existed⟩)
  | .none => (t, none)

/-- Numbers instructions in order. -/
def scan (ordered : Bool) (t : WordTable) : List Site → WordTable × List Step
  | [] => (t, [])
  | site :: sites =>
    let (t, assignment) := t.assign ordered site.instruction.result site.instruction.effect
    let (t, steps) := scan ordered t sites
    (t, { site, assignment } :: steps)

/-- Numbers a procedure on top of what a table already holds. -/
def numberInto (ordered : Bool) (p : Procedure) (t : WordTable) : WordTable × Report :=
  let (t, steps) := t.scan ordered p.sites
  (t, { procedure := p.name, records := steps.filterMap (Step.record? p) })

/-- The value is an operand that is numbered, and has no number in the table when the first
instruction that has it numbered comes up. -/
def ComesUnnumbered (ordered : Bool) (t : WordTable) (sites : List Site) (v : ValueId) : Prop :=
  ∃ pre site post, sites = pre ++ site :: post ∧ v ∈ numberedOperands site.instruction.effect ∧
    (∀ earlier ∈ pre, v ∉ numberedOperands earlier.instruction.effect) ∧
    (t.scan ordered pre).1.values[v]? = none

end WordTable

/-! ### The table that words stand for -/

/-- The request that words stand for. -/
def WordRequest.toRequest : WordRequest → Request
  | .value v => .value v
  | .expression text => .expression text
  | .renumber v number => .renumber v number.toNat

/-- The call that words stand for. -/
def WordCall.toCall : WordCall → Call
  | .request r => .request r.toRequest
  | .reset => .reset

/-- The table that words stand for. -/
def WordTable.toTable (t : WordTable) : Table where
  next := t.next.toNat
  values := t.values.map fun _ number ↦ number.toNat
  expressions := t.expressions.map fun _ number ↦ number.toNat

/-- Words that are entered stand for numbers that are entered. -/
theorem map_toNat_insert {α : Type} [Ord α] [Std.TransOrd α] [Std.LawfulEqOrd α]
    (m : Std.ExtTreeMap α UInt32 compare) (k : α) (number : UInt32) :
    (m.insert k number).map (fun _ number ↦ number.toNat) =
      (m.map fun _ number ↦ number.toNat).insert k number.toNat := by
  apply Std.ExtTreeMap.ext_getElem?
  intro k'
  simp only [Std.ExtTreeMap.getElem?_map, Std.ExtTreeMap.getElem?_insert]
  split <;> rfl

/-- Code in two parts is scanned part by part. -/
theorem fst_scan_append (ordered : Bool) (t : Table) (sites more : List Site) :
    (scan ordered t (sites ++ more)).1 = (scan ordered (scan ordered t sites).1 more).1 := by
  induction sites generalizing t with
  | nil => rfl
  | cons site sites ih => exact ih _

namespace Table

/-- The counter does not go back. -/
theorem next_le_answer (t : Table) (r : Request) : t.next ≤ (t.answer r).1.next := by
  rw [t.next_answer]
  exact Nat.le_add_right _ _

/-- A request takes at most one number from the counter. -/
theorem next_answer_le (t : Table) (r : Request) : (t.answer r).1.next ≤ t.next + 1 := by
  rw [t.next_answer]
  split
  · exact Nat.le_refl _
  · exact Nat.le_succ _

/-- An instruction takes at most three numbers, two for its operands and one for its key. -/
theorem next_assign_le (t : Table) (ordered : Bool) (result : ValueId) (effect : Effect) :
    (t.assign ordered result effect).1.next ≤ t.next + 3 := by
  cases effect with
  | load address =>
    exact Nat.le_trans (t.next_answer_le (.value address)) (Nat.add_le_add_left (by decide) _)
  | store value address =>
    exact Nat.le_trans (t.next_answer_le (.value value)) (Nat.add_le_add_left (by decide) _)
  | compute op lhs rhs =>
    have hlhs := t.next_answer_le (.value lhs)
    have hrhs := (t.numberValue lhs).1.next_answer_le (.value rhs)
    have hkey := ((t.numberValue lhs).1.numberValue rhs).1.next_answer_le (.expression
      (Expression.ofOperation op (t.numberValue lhs).2.number
        ((t.numberValue lhs).1.numberValue rhs).2.number ordered).key)
    exact Nat.le_trans hkey (Nat.succ_le_succ (Nat.le_trans hrhs (Nat.succ_le_succ hlhs)))
  | none => exact Nat.le_add_right _ _

/-- A scan takes at most three numbers for each instruction. -/
theorem next_scan_le (t : Table) (ordered : Bool) (sites : List Site) :
    (scan ordered t sites).1.next ≤ t.next + 3 * sites.length := by
  induction sites generalizing t with
  | nil => exact Nat.le_refl _
  | cons site sites ih =>
    have hfirst := t.next_assign_le ordered site.instruction.result site.instruction.effect
    have hrest := Nat.le_trans (ih _) (Nat.add_le_add_right hfirst _)
    rw [List.length_cons, Nat.mul_succ, Nat.add_comm (3 * _), ← Nat.add_assoc]
    exact hrest

/-- The counter does not go back while a procedure is scanned. -/
theorem next_le_scan (t : Table) (ordered : Bool) (sites : List Site) :
    t.next ≤ (scan ordered t sites).1.next :=
  scan_keeps (P := (t.next ≤ ·.next)) (fun t r h ↦ Nat.le_trans h (t.next_le_answer r))
    (Nat.le_refl _) ordered sites

end Table

namespace WordTable

theorem toTable_empty : toTable {} = .empty := by
  simp [toTable, Table.empty]

variable (t : WordTable)

theorem lookupValue_toTable (v : ValueId) :
    t.toTable.lookupValue v = t.values[v]?.map UInt32.toNat := by
  simp [toTable, Table.lookupValue]

theorem lookupExpression_toTable (text : String) :
    t.toTable.lookupExpression text = t.expressions[text]?.map UInt32.toNat := by
  simp [toTable, Table.lookupExpression]

/-- Below the largest word the counter advances as a number does. -/
theorem toNat_next_add_one (h : t.toTable.next + 1 < UInt32.size) :
    (t.next + 1).toNat = t.toTable.next + 1 := by
  rw [UInt32.toNat_add]
  exact Nat.mod_eq_of_lt h

/-! ### Within the limit -/

/-- A value receives the same number, unless the counter goes back. -/
theorem toTable_numberValue (v : ValueId)
    (h : (t.toTable.numberValue v).1.next < UInt32.size) :
    (t.numberValue v).1.toTable = (t.toTable.numberValue v).1 ∧
      (t.numberValue v).2.number.toNat = (t.toTable.numberValue v).2.number := by
  have hlookup := t.lookupValue_toTable v
  rw [numberValue]
  cases hv : t.values[v]? with
  | some number =>
    rw [hv] at hlookup
    rw [Table.numberValue_of_some _ hlookup]
    exact ⟨rfl, rfl⟩
  | none =>
    rw [hv] at hlookup
    rw [Table.numberValue_of_none _ hlookup] at h ⊢
    refine ⟨?_, rfl⟩
    simp only [toTable, map_toNat_insert]
    exact congrArg (Table.mk · _ _) (t.toNat_next_add_one h)

/-- An expression is found or receives the same number, unless the counter goes back. -/
theorem toTable_numberExpression (text : String)
    (h : (t.toTable.numberExpression text).1.next < UInt32.size) :
    (t.numberExpression text).1.toTable = (t.toTable.numberExpression text).1 ∧
      (t.numberExpression text).2.number.toNat = (t.toTable.numberExpression text).2.number ∧
      (t.numberExpression text).2.existed = (t.toTable.numberExpression text).2.existed := by
  have hlookup := t.lookupExpression_toTable text
  rw [numberExpression]
  cases htext : t.expressions[text]? with
  | some number =>
    rw [htext] at hlookup
    rw [Table.numberExpression_of_some _ hlookup]
    exact ⟨rfl, rfl, rfl⟩
  | none =>
    rw [htext] at hlookup
    rw [Table.numberExpression_of_none _ hlookup] at h ⊢
    refine ⟨?_, rfl, rfl⟩
    simp only [toTable, map_toNat_insert]
    exact congrArg (Table.mk · _ _) (t.toNat_next_add_one h)

/-- An alias leaves the counter alone, so it always does the same. -/
theorem toTable_aliasValue (v : ValueId) (number : UInt32) :
    (t.aliasValue v number).1.toTable = (t.toTable.aliasValue v number.toNat).1 := by
  simp only [Table.aliasValue, aliasValue, toTable, map_toNat_insert]

/-- A word table does with a request what the table does, unless its counter goes back. -/
theorem toTable_answer (r : WordRequest)
    (h : (t.toTable.answer r.toRequest).1.next < UInt32.size) :
    (t.answer r).1.toTable = (t.toTable.answer r.toRequest).1 := by
  cases r with
  | value v => exact (t.toTable_numberValue v h).1
  | expression text => exact (t.toTable_numberExpression text h).1
  | renumber v number => exact t.toTable_aliasValue v number

/-- A word table numbers an effect as the table does, unless its counter goes back. -/
theorem toTable_assign (ordered : Bool) (result : ValueId) (effect : Effect)
    (h : (t.toTable.assign ordered result effect).1.next < UInt32.size) :
    (t.assign ordered result effect).1.toTable = (t.toTable.assign ordered result effect).1 ∧
      (t.assign ordered result effect).2 = (t.toTable.assign ordered result effect).2 := by
  cases effect with
  | load address =>
    obtain ⟨htable, hnumber⟩ := t.toTable_numberValue address h
    simp only [assign, Table.assign, toTable_aliasValue, htable, hnumber, and_self]
  | store value address =>
    obtain ⟨htable, hnumber⟩ := t.toTable_numberValue value h
    simp only [assign, Table.assign, toTable_aliasValue, htable, hnumber, and_self]
  | compute op lhs rhs =>
    -- the counter comes by the numbers of the operands before it comes to that of the key
    have hoperands : (t.toTable.numberAll [lhs, rhs]).next < UInt32.size :=
      Nat.lt_of_le_of_lt (Table.next_le_answer _ (.expression _)) h
    have hfirst : (t.toTable.numberValue lhs).1.next < UInt32.size :=
      Nat.lt_of_le_of_lt (Table.next_le_answer _ (.value rhs)) hoperands
    obtain ⟨hleft, hlhs⟩ := t.toTable_numberValue lhs hfirst
    obtain ⟨hright, hrhs⟩ := (t.numberValue lhs).1.toTable_numberValue rhs (hleft ▸ hoperands)
    rw [hleft] at hright hrhs
    simp only [assign, Table.assign, hlhs, hrhs] at h ⊢
    generalize (Expression.ofOperation _ _ _ _).key = key at h ⊢
    obtain ⟨hcomputed, hnumber, hexisted⟩ :=
      ((t.numberValue lhs).1.numberValue rhs).1.toTable_numberExpression key (hright ▸ h)
    rw [hright] at hcomputed hnumber hexisted
    simp only [toTable_aliasValue, hcomputed, hnumber, hexisted, and_self]
  | none => exact ⟨rfl, rfl⟩

/-- A word table scans code as the table does, unless its counter goes back. -/
theorem toTable_scan (ordered : Bool) (sites : List Site)
    (h : (Numbering.scan ordered t.toTable sites).1.next < UInt32.size) :
    (t.scan ordered sites).1.toTable = (Numbering.scan ordered t.toTable sites).1 ∧
      (t.scan ordered sites).2 = (Numbering.scan ordered t.toTable sites).2 := by
  induction sites generalizing t with
  | nil => exact ⟨rfl, rfl⟩
  | cons site sites ih =>
    have hfirst := t.toTable_assign ordered site.instruction.result site.instruction.effect
      (Nat.lt_of_le_of_lt (Table.next_le_scan _ ordered sites) h)
    have hrest := ih (t.assign ordered site.instruction.result site.instruction.effect).1
    rw [hfirst.1] at hrest
    simp only [scan, Numbering.scan, hfirst.2]
    exact ⟨(hrest h).1, congrArg _ (hrest h).2⟩

/-- A word table numbers a procedure as the table does, unless its counter goes back. -/
theorem toTable_numberInto (ordered : Bool) (p : Procedure)
    (h : (Numbering.numberInto ordered p t.toTable).1.next < UInt32.size) :
    ((t.numberInto ordered p).1.toTable, (t.numberInto ordered p).2) =
      Numbering.numberInto ordered p t.toTable := by
  obtain ⟨htable, hsteps⟩ := t.toTable_scan ordered p.sites h
  simp only [numberInto, Numbering.numberInto, htable, hsteps]

/-- From the empty table this is so for every procedure of fewer than 1431655765 instructions. -/
theorem toTable_numberInto_empty (ordered : Bool) {p : Procedure}
    (h : p.instructionCount < 1431655765) :
    ((({} : WordTable).numberInto ordered p).1.toTable, (({} : WordTable).numberInto ordered p).2) =
      Numbering.numberInto ordered p .empty := by
  have hsites : p.sites.length = p.instructionCount := by
    simp [Procedure.sites, Procedure.instructionCount, BasicBlock.sites, List.length_flatMap]
  have hnext := Table.next_scan_le .empty ordered p.sites
  rw [hsites] at hnext
  have hlimit : Table.empty.next + 3 * p.instructionCount < UInt32.size := by
    change 1 + 3 * p.instructionCount < 4294967296
    omega
  rw [← toTable_empty]
  refine toTable_numberInto {} ordered p ?_
  rw [toTable_empty]
  exact Nat.lt_of_le_of_lt hnext hlimit

/-- The calls leave on a word table what they leave on the table, unless its counter goes back after
the table was last emptied. -/
theorem toTable_run (calls : List WordCall)
    (h : (Ledger.run {} (calls.map WordCall.toCall)).table.next < UInt32.size) :
    (run {} calls).toTable = (Ledger.run {} (calls.map WordCall.toCall)).table := by
  induction calls using List.reverseRecOn with
  | nil => exact toTable_empty
  | append_singleton calls call ih =>
    simp only [run, Ledger.run, List.map_append, List.map_cons, List.map_nil, List.foldl_append,
      List.foldl_cons, List.foldl_nil] at h ih ⊢
    cases call with
    | request r =>
      have hbefore := ih (Nat.lt_of_le_of_lt (Table.next_le_answer _ _) h)
      have hanswer := (calls.foldl step {}).toTable_answer r
      rw [hbefore] at hanswer
      exact hanswer h
    | reset => exact toTable_empty

/-- The operands that come up without a number are the same, unless the counter goes back. -/
theorem comesUnnumbered_iff (ordered : Bool) (sites : List Site)
    (h : (Numbering.scan ordered t.toTable sites).1.next < UInt32.size) (v : ValueId) :
    t.ComesUnnumbered ordered sites v ↔ Numbering.ComesUnnumbered ordered t.toTable sites v := by
  unfold ComesUnnumbered Numbering.ComesUnnumbered
  refine exists_congr fun pre ↦ exists_congr fun site ↦ exists_congr fun post ↦
    and_congr_right fun hsites ↦ and_congr_right fun _ ↦ and_congr_right fun _ ↦ ?_
  have hfront : (Numbering.scan ordered t.toTable pre).1.next < UInt32.size := by
    rw [hsites, fst_scan_append] at h
    exact Nat.lt_of_le_of_lt (Table.next_le_scan _ ordered _) h
  rw [← (t.toTable_scan ordered pre hfront).1, lookupValue_toTable, Option.map_eq_none_iff]

end WordTable

/-- Words suffice for a described procedure that is within their limit and has fewer than 1431655765
instructions: the same calls build it, and it is numbered to the same report. -/
theorem words_suffice {d : ProcedureDesc} {p : Procedure} (hd : d.toProcedure = .ok p)
    (hwords : p.WithinWords) (hcount : p.instructionCount < 1431655765) :
    (∃ steps, (Procedure.empty d.name).buildAll steps = .ok p ∧
      (Procedure.empty d.name).buildAllWords steps = .ok p) ∧
    ∀ ordered, (({} : WordTable).numberInto ordered p).2 = number ordered p := by
  obtain ⟨steps, hsteps, hsame⟩ := ProcedureDesc.exists_buildAll_of_toProcedure hd
  refine ⟨⟨steps, hsteps, hsame hwords⟩, fun ordered ↦ ?_⟩
  exact congrArg Prod.snd (WordTable.toTable_numberInto_empty ordered hcount)

/-! ### Keys that repeat -/

/-- The counter does not go back, neither after the calls have last emptied the table nor while the
procedure is numbered: counted in natural numbers it stays below the limit of words. -/
def CounterFits (calls : List WordCall) (ordered : Bool) (p : Procedure) : Prop :=
  (numberInto ordered p (Ledger.run {} (calls.map WordCall.toCall)).table).1.next < UInt32.size

/-- Numbering a procedure on a word table that any calls have filled, aliases to any numbers and
resets among them, with operands put in order or not: as long as the counter does not go back, the
redundant records are those that repeat a key, expressions have the same number exactly if they have
the same key, and the counter advances by the keys gained and by the different values that had no
number when they first came up as operands to be numbered. -/
theorem redundant_repeats_key (calls : List WordCall) (ordered : Bool) (p : Procedure)
    (t t' : WordTable) (report : Report) (ht : WordTable.run {} calls = t)
    (h : t.numberInto ordered p = (t', report)) (hfits : CounterFits calls ordered p) :
    RepeatsKeys p t.toTable t'.toTable report (t.ComesUnnumbered ordered p.sites) := by
  have htable : t.toTable = (Ledger.run {} (calls.map WordCall.toCall)).table := by
    rw [← ht]
    exact WordTable.toTable_run calls
      (Nat.lt_of_le_of_lt (Table.next_le_scan _ ordered p.sites) hfits)
  have hroom : (scan ordered t.toTable p.sites).1.next < UInt32.size := by
    rw [htable]
    exact hfits
  have hapart : t.toTable.KeysApart := by
    rw [htable]
    exact Ledger.run_keeps Table.keysApart_empty Table.keysApart_answer Table.keysApart_empty _
  have hunnumbered : t.ComesUnnumbered ordered p.sites =
      ComesUnnumbered ordered t.toTable p.sites :=
    funext fun v ↦ propext (t.comesUnnumbered_iff ordered p.sites hroom v)
  have hnumbered : (t'.toTable, report) = numberInto ordered p t.toTable := by
    rw [← t.toTable_numberInto ordered p hroom, h]
  have hkeys := repeatsKeys_numberInto hapart ordered p
  rw [← hnumbered] at hkeys
  rw [hunnumbered]
  exact hkeys

/-- Calls that leave a key and two values of one number, on either side of a reset. -/
def earlierCalls : List WordCall := [
  .request (.expression "1 add 1"), .reset, .request (.value 7), .request (.expression "1 add 1"),
  .request (.renumber 8 1)]

/-- The table that they leave. -/
def inherited : WordTable := WordTable.run {} earlierCalls

/-- A sum whose key is in that table, and a product that is computed twice with an operand stored in
between; the variable of the last store has a number when it first comes up as an operand. -/
def handover : Procedure where
  name := "handover"
  values := #[]
  blocks := #[
    { id := 0, name := "first", successors := [1], predecessors := []
      instructions := #[⟨.add, [7, 8], 20⟩, ⟨.load, [5], 21⟩, ⟨.mul, [21, 6], 22⟩] },
    { id := 1, name := "second", successors := [], predecessors := [0]
      instructions := #[⟨.store, [22, 6], 23⟩, ⟨.mul, [21, 6], 24⟩, ⟨.mul, [5, 22], 25⟩,
        ⟨.store, [30, 31], 26⟩, ⟨.sub, [31, 31], 27⟩, ⟨.sub, [32], 28⟩] }]

/-- Two of the five operators are redundant, so three keys are gained; and the counter, which
advances by six, has numbered three operands. -/
theorem handover_repeats_key :
    CounterFits earlierCalls false handover ∧
    (inherited.numberInto false handover).2.records.map Record.redundant =
      [true, false, false, false, false, true, false, false] ∧
    inherited.next = 3 ∧ (inherited.numberInto false handover).1.next = 9 ∧
    (inherited.numberInto false handover).2.redundant.length + 3 = 5 ∧
    ∃ fresh : Finset ValueId,
      (∀ v, v ∈ fresh ↔ inherited.ComesUnnumbered false handover.sites v) ∧ fresh.card = 3 := by
  have hfits : CounterFits earlierCalls false handover := by
    unfold CounterFits
    decide +kernel
  have hflags : (inherited.numberInto false handover).2.records.map Record.redundant =
      [true, false, false, false, false, true, false, false] := by
    decide +kernel
  have hstart : inherited.next = 3 ∧ inherited.toTable.expressionCount = 1 := by decide +kernel
  have hend : (inherited.numberInto false handover).1.next = 9 ∧
      (inherited.numberInto false handover).1.toTable.expressionCount = 4 ∧
      (inherited.numberInto false handover).2.records.countP (·.source.isExpression) = 5 := by
    decide +kernel
  have hreport : inherited.numberInto false handover =
      ((inherited.numberInto false handover).1, (inherited.numberInto false handover).2) := rfl
  obtain ⟨growth, hgrowth, hredundant, fresh, hfresh, hnext⟩ :=
    (redundant_repeats_key earlierCalls false handover inherited _ _ rfl hreport hfits).growth
  obtain rfl : growth = 3 := by omega
  rw [hend.2.2] at hredundant
  have hcounters : 9 = 3 + 3 + fresh.card := by
    simpa [WordTable.toTable, hstart.1, hend.1] using hnext
  exact ⟨hfits, hflags, hstart.1, hend.1, hredundant, fresh, hfresh, by omega⟩

/-! ### Beyond the limit -/

/-- A key, and then so many values. -/
def exhaustion (count : Nat) : List WordCall :=
  .request (.expression "2 add 2") :: (List.range count).map fun v ↦ .request (.value v)

/-- The key has received the first number, and the values the others in turn. -/
theorem run_exhaustion (count : Nat) :
    (WordTable.run {} (exhaustion count)).next = UInt32.ofNat (count + 2) ∧
    (WordTable.run {} (exhaustion count)).expressions =
      (∅ : Std.ExtTreeMap String UInt32 compare).insert "2 add 2" 1 ∧
    ∀ v, (WordTable.run {} (exhaustion count)).values[v]? =
      if v < count then some (UInt32.ofNat (v + 2)) else none := by
  induction count with
  | zero =>
    refine ⟨rfl, rfl, fun v ↦ ?_⟩
    simp [exhaustion, WordTable.run, WordTable.step, WordTable.answer, WordTable.numberExpression]
  | succ count ih =>
    obtain ⟨hnext, hexpressions, hvalues⟩ := ih
    have hlast : WordTable.run {} (exhaustion (count + 1)) =
        ((WordTable.run {} (exhaustion count)).numberValue count).1 := by
      simp [exhaustion, WordTable.run, List.range_succ, WordTable.step, WordTable.answer]
    have hnew : (WordTable.run {} (exhaustion count)).values[count]? = none := by
      simp [hvalues]
    rw [hlast, WordTable.numberValue, hnew]
    dsimp only
    refine ⟨?_, hexpressions, ?_⟩
    · rw [hnext]
      exact (UInt32.ofNat_add (count + 2) 1).symm
    · intro v
      rw [Std.ExtTreeMap.getElem?_insert, hvalues, hnext]
      grind

/-- A sum, a difference and a product of one value with itself. -/
def selfMade : Procedure where
  name := "self_made"
  values := #[⟨some "x", none⟩, ⟨none, some (0, 0)⟩, ⟨none, some (0, 1)⟩, ⟨none, some (0, 2)⟩]
  blocks := #[
    { id := 0, name := "entry", successors := [], predecessors := []
      instructions := #[⟨.add, [0, 0], 1⟩, ⟨.sub, [0, 0], 2⟩, ⟨.mul, [0, 0], 3⟩] }]

/-- Where the counter has gone back to zero, the difference receives that, and the product the
number that the key of the sum has had all along. -/
theorem records_selfMade {t : WordTable} (hnext : t.next = 0) (hvalue : t.values[0]? = some 2)
    (hexpressions : t.expressions = (∅ : Std.ExtTreeMap String UInt32 compare).insert "2 add 2" 1) :
    (t.numberInto false selfMade).2.records.map (fun r ↦ (r.destination, r.source)) =
      [(1, .expression "2 add 2"), (0, .expression "2 sub 2"), (1, .expression "2 mul 2")] := by
  have hadd : (Expression.ofOperation .add 2 2 false).key = "2 add 2" := by decide
  have hsub : (Expression.ofOperation .sub 2 2 false).key = "2 sub 2" := by decide
  have hmul : (Expression.ofOperation .mul 2 2 false).key = "2 mul 2" := by decide
  simp [WordTable.numberInto, Procedure.sites, selfMade, BasicBlock.sites, WordTable.scan,
    Instruction.effect, WordTable.assign, WordTable.numberValue, WordTable.numberExpression,
    WordTable.aliasValue, hvalue, hexpressions, hnext, hadd, hsub, hmul,
    Std.ExtTreeMap.getElem?_insert, Step.record?]

/-- So they have the same number and different keys. -/
theorem not_repeatsKeys_selfMade {t : WordTable} (hnext : t.next = 0)
    (hvalue : t.values[0]? = some 2)
    (hexpressions : t.expressions = (∅ : Std.ExtTreeMap String UInt32 compare).insert "2 add 2" 1) :
    ¬RepeatsKeys selfMade t.toTable (t.numberInto false selfMade).1.toTable
      (t.numberInto false selfMade).2 (t.ComesUnnumbered false selfMade.sites) := by
  intro hkeys
  have hrecords := records_selfMade hnext hvalue hexpressions
  have hsame := hkeys.destination_iff
  generalize (t.numberInto false selfMade).2.records = records at hrecords hsame
  obtain ⟨sum, rest, rfl, hsum, hrest⟩ := List.map_eq_cons_iff.mp hrecords
  obtain ⟨difference, rest, rfl, -, hrest⟩ := List.map_eq_cons_iff.mp hrest
  obtain ⟨product, rest, rfl, hproduct, -⟩ := List.map_eq_cons_iff.mp hrest
  obtain ⟨hsumNumber, hsumKey⟩ := Prod.mk.inj hsum
  obtain ⟨hproductNumber, hproductKey⟩ := Prod.mk.inj hproduct
  have hkey := (hsame sum (by simp) product (by simp) _ _ hsumKey hproductKey).mp
    (hsumNumber.trans hproductNumber.symm)
  exact absurd hkey (by decide)

/-- Without the limit this fails, even for calls that make no alias. A key and 4294967294 values
bring the counter back to zero; then a difference receives zero, and a product the number of a sum.
-/
theorem exhausted_repeats_number :
    ¬∀ (calls : List WordCall) (ordered : Bool) (p : Procedure) (t t' : WordTable)
      (report : Report), (∀ v number, .request (.renumber v number) ∉ calls) →
        WordTable.run {} calls = t → t.numberInto ordered p = (t', report) →
        RepeatsKeys p t.toTable t'.toTable report (t.ComesUnnumbered ordered p.sites) := by
  intro hall
  -- the count is kept apart from its value, which only the counter needs
  obtain ⟨count, hcount⟩ : ∃ count, count = 4294967294 := ⟨_, rfl⟩
  obtain ⟨hnext, hexpressions, hvalues⟩ := run_exhaustion count
  have hcalls : ∀ v number, WordCall.request (.renumber v number) ∉ exhaustion count := by
    simp [exhaustion]
  have hback : UInt32.ofNat (count + 2) = 0 := by
    rw [hcount]
    decide
  have hfirst : (WordTable.run {} (exhaustion count)).values[0]? = some 2 := by
    rw [hvalues, if_pos (by omega)]
    rfl
  refine not_repeatsKeys_selfMade (hnext.trans hback) hfirst hexpressions ?_
  exact hall (exhaustion count) false selfMade _ _ _ hcalls rfl rfl

end BlockFlow.Numbering
