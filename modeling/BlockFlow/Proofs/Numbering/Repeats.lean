import BlockFlow.Proofs.Numbering.Again
import BlockFlow.Proofs.Procedure.Inert
import Mathlib.Data.Finset.Card

/-!
# Redundant records repeat a key

A scan may start on any table that calls have filled, with values renumbered at will. It numbers the
operands of an instruction first and then settles the instruction: a number is passed on, a key is
found, or a key is entered under the next number of the counter. Nothing takes a key out again. So
an expression is redundant exactly if its key was in the table at the start or has come up earlier
in the scan, expressions have the same number exactly if they have the same key, and what the
counter has advanced by is the number of keys that were entered and of operands that came without a
number.
-/

namespace BlockFlow.Numbering

/-! ### What every request keeps -/

/-- What every request keeps, numbering an effect keeps. -/
theorem Table.assign_keeps {P : Table → Prop} (hkeeps : ∀ t r, P t → P (t.answer r).1) {t : Table}
    (h : P t) (ordered : Bool) (result : ValueId) (effect : Effect) :
    P (t.assign ordered result effect).1 := by
  cases effect with
  | load address =>
    have haddress := hkeeps t (.value address) h
    exact hkeeps _ (.renumber result _) haddress
  | store value address =>
    have hvalue := hkeeps t (.value value) h
    exact hkeeps _ (.renumber address _) hvalue
  | compute op lhs rhs =>
    have hlhs := hkeeps t (.value lhs) h
    have hrhs := hkeeps _ (.value rhs) hlhs
    exact hkeeps _ (.renumber result _) (hkeeps _ (.expression _) hrhs)
  | none => exact h

/-- What every request keeps, a scan keeps. -/
theorem scan_keeps {P : Table → Prop} (hkeeps : ∀ t r, P t → P (t.answer r).1) {t : Table}
    (h : P t) (ordered : Bool) (sites : List Site) : P (scan ordered t sites).1 := by
  induction sites generalizing t with
  | nil => exact h
  | cons site sites ih => exact ih (Table.assign_keeps hkeeps h ordered _ _)

/-- What an empty table has and every request keeps, a table has after any calls. -/
theorem Ledger.run_keeps {P : Table → Prop} (hempty : P .empty)
    (hkeeps : ∀ t r, P t → P (t.answer r).1) {l : Ledger} (hl : P l.table) (calls : List Call) :
    P (l.run calls).table := by
  induction calls generalizing l with
  | nil => exact hl
  | cons call calls ih =>
    apply ih
    cases call with
    | request r => exact hkeeps l.table r hl
    | reset => exact hempty

/-! ### Operands -/

/-- The operands of an effect that are numbered, in the order in which they are. The variable that a
store writes is not among them: it takes over a number. -/
def numberedOperands : Effect → List ValueId
  | .load address => [address]
  | .store value _ => [value]
  | .compute _ lhs rhs => [lhs, rhs]
  | .none => []

namespace Table

/-- Numbers values one after the other. -/
def numberAll (t : Table) (vs : List ValueId) : Table :=
  vs.foldl (fun t v ↦ (t.numberValue v).1) t

/-- The values of a list that have no number. -/
def unnumbered (t : Table) (vs : List ValueId) : Finset ValueId :=
  vs.toFinset.filter (t.lookupValue · = none)

theorem mem_unnumbered (t : Table) (vs : List ValueId) (v : ValueId) :
    v ∈ t.unnumbered vs ↔ v ∈ vs ∧ t.lookupValue v = none := by
  simp [unnumbered]

/-- Numbering values leaves the expressions alone. -/
theorem expressions_numberAll (t : Table) (vs : List ValueId) :
    (t.numberAll vs).expressions = t.expressions := by
  induction vs generalizing t with
  | nil => rfl
  | cons v vs ih =>
    have hfirst : (t.numberValue v).1.expressions = t.expressions := by
      unfold numberValue
      split <;> rfl
    exact (ih _).trans hfirst

theorem lookupExpression_numberAll (t : Table) (vs : List ValueId) (key : String) :
    (t.numberAll vs).lookupExpression key = t.lookupExpression key := by
  rw [lookupExpression, expressions_numberAll]
  rfl

theorem expressionCount_numberAll (t : Table) (vs : List ValueId) :
    (t.numberAll vs).expressionCount = t.expressionCount := by
  rw [expressionCount, expressions_numberAll]
  rfl

/-- Numbering values takes a number for each different value that has none. -/
theorem next_numberAll (t : Table) (vs : List ValueId) :
    (t.numberAll vs).next = t.next + (t.unnumbered vs).card := by
  induction vs generalizing t with
  | nil => rfl
  | cons v vs ih =>
    have hfirst : (t.numberAll (v :: vs)).next = ((t.numberValue v).1.numberAll vs).next := rfl
    rw [hfirst, ih]
    cases hv : t.lookupValue v with
    | some k =>
      have hsame : t.unnumbered (v :: vs) = t.unnumbered vs := by
        ext w
        simp only [mem_unnumbered, List.mem_cons]
        grind
      rw [t.numberValue_of_some hv, hsame]
    | none =>
      have hlookup := t.lookupValue_numberValue v
      have hnext : (t.numberValue v).1.next = t.next + 1 := by rw [t.numberValue_of_none hv]
      have hinsert : t.unnumbered (v :: vs) = insert v ((t.numberValue v).1.unnumbered vs) := by
        ext w
        simp only [mem_unnumbered, Finset.mem_insert, List.mem_cons, hlookup]
        grind
      have hnew : v ∉ (t.numberValue v).1.unnumbered vs := by
        simp [mem_unnumbered, hlookup]
      rw [hinsert, Finset.card_insert_of_notMem hnew, hnext]
      exact Nat.add_right_comm _ _ _

end Table

/-! ### One instruction -/

namespace Table

/-- How an instruction is settled once its operands have numbers: what table it leaves, and what it
reports. Whichever value takes over a number, only the values are different then. -/
inductive Settles (t : Table) : Table → Option Assignment → Prop
  | pass : t.Settles t none
  /-- A number is passed on. -/
  | copy (values : Std.ExtTreeMap ValueId Number compare) (number : Number) :
    t.Settles { t with values } (some ⟨number, .copy number, false⟩)
  /-- The key of the expression is in the table. -/
  | found (values : Std.ExtTreeMap ValueId Number compare) (key : String) (number : Number)
    (hkey : t.lookupExpression key = some number) :
    t.Settles { t with values } (some ⟨number, .expression key, true⟩)
  /-- The key of the expression is new and receives the number of the counter. -/
  | entered (values : Std.ExtTreeMap ValueId Number compare) (key : String)
    (hkey : t.lookupExpression key = none) :
    t.Settles { next := t.next + 1, values, expressions := t.expressions.insert key t.next }
      (some ⟨t.next, .expression key, false⟩)

/-- Numbering an effect numbers its operands and then settles it. -/
theorem settles_assign (t : Table) (ordered : Bool) (result : ValueId) (effect : Effect) :
    (t.numberAll (numberedOperands effect)).Settles (t.assign ordered result effect).1
      (t.assign ordered result effect).2 := by
  cases effect with
  | load address => exact .copy _ _
  | store value address => exact .copy _ _
  | compute op lhs rhs =>
    rw [assign]
    dsimp only
    generalize (Expression.ofOperation _ _ _ _).key = key
    have hoperands : ((t.numberValue lhs).1.numberValue rhs).1 =
      t.numberAll (numberedOperands (.compute op lhs rhs)) := rfl
    rw [hoperands]
    -- from here on the operands do not matter, only whether the key is in the table
    generalize t.numberAll _ = t'
    cases hkey : t'.lookupExpression key with
    | some number =>
      rw [t'.numberExpression_of_some hkey]
      exact .found _ key number hkey
    | none =>
      rw [t'.numberExpression_of_none hkey]
      exact .entered _ key hkey
  | none => exact .pass

namespace Settles

variable {t t' : Table} {a : Assignment} {assignment : Option Assignment} {key : String}

/-- A record is redundant exactly if its key is in the table. -/
theorem redundant_iff (h : t.Settles t' (some a)) (hkey : a.source = .expression key) :
    a.redundant = true ↔ (t.lookupExpression key).isSome = true := by
  cases h with
  | copy values number => cases hkey
  | found values key' number hfound =>
    cases hkey
    simp [hfound]
  | entered values key' hnew =>
    cases hkey
    simp [hnew]

/-- Only expressions are redundant. -/
theorem isExpression_of_redundant (h : t.Settles t' (some a)) (hredundant : a.redundant = true) :
    a.source.isExpression = true := by
  cases h with
  | copy values number => cases hredundant
  | found values key number hfound => rfl
  | entered values key hnew => rfl

/-- The number of an expression is the one that its key has from then on. -/
theorem lookupExpression_destination (h : t.Settles t' (some a))
    (hkey : a.source = .expression key) : t'.lookupExpression key = some a.destination := by
  cases h with
  | copy values number => cases hkey
  | found values key' number hfound =>
    cases hkey
    exact hfound
  | entered values key' hnew =>
    cases hkey
    simp [lookupExpression]

/-- The keys are those from before and the one of the instruction. -/
theorem isSome_lookupExpression (h : t.Settles t' assignment) (key : String) :
    (t'.lookupExpression key).isSome = true ↔
      (t.lookupExpression key).isSome = true ∨ ∃ a ∈ assignment, a.source = .expression key := by
  cases h with
  | pass => simp
  | copy values number => simp [lookupExpression]
  | found values key' number hfound =>
    have hexpressions : Table.lookupExpression { t with values } key = t.lookupExpression key := rfl
    by_cases heq : key' = key
    · subst heq
      simp [hexpressions, hfound]
    · simp [hexpressions, heq]
  | entered values key' hnew =>
    by_cases heq : key' = key
    · simp [lookupExpression, heq]
    · simp [lookupExpression, heq, Std.ExtTreeMap.getElem?_insert]

end Settles

end Table

/-! ### Records of a scan -/

/-- The records of a scan. -/
def recordsFrom (ordered : Bool) (p : Procedure) (t : Table) (sites : List Site) : List Record :=
  (scan ordered t sites).2.filterMap (Step.record? p)

/-- What is recorded of an assignment. -/
def Assignment.record (p : Procedure) (site : Site) (a : Assignment) : Record where
  block := site.block.id
  result := site.instruction.result
  instruction := p.instructionText site.instruction
  destination := a.destination
  source := a.source
  redundant := a.redundant

section

variable {ordered : Bool} {p : Procedure} {t : Table} {sites : List Site} {r : Record}

theorem recordsFrom_cons (ordered : Bool) (p : Procedure) (t : Table) (site : Site)
    (sites : List Site) :
    let assigned := t.assign ordered site.instruction.result site.instruction.effect
    recordsFrom ordered p t (site :: sites) =
      (assigned.2.map (Assignment.record p site)).toList ++
        recordsFrom ordered p assigned.1 sites :=
  records_cons ordered p t site sites

/-- A record is redundant exactly if its key is in the table at the start or is that of a record in
front of it. -/
theorem redundant_iff_of_split {pre post : List Record} {key : String}
    (hsplit : recordsFrom ordered p t sites = pre ++ r :: post)
    (hkey : r.source = .expression key) :
    r.redundant = true ↔ (t.lookupExpression key).isSome = true ∨
      ∃ earlier ∈ pre, earlier.source = .expression key := by
  -- over the code, for every table: the key of the first instruction is in the table of the others
  induction sites generalizing t pre with
  | nil => simp [recordsFrom, scan] at hsplit
  | cons site sites ih =>
    have hsettles := t.settles_assign ordered site.instruction.result site.instruction.effect
    have hkeys := hsettles.isSome_lookupExpression key
    rw [t.lookupExpression_numberAll] at hkeys
    rw [recordsFrom_cons] at hsplit
    cases ha : (t.assign ordered site.instruction.result site.instruction.effect).2 with
    | none =>
      rw [ha] at hkeys hsplit
      rw [ih hsplit, hkeys]
      simp
    | some a =>
      rw [ha] at hsettles hkeys hsplit
      cases pre with
      | nil =>
        obtain ⟨rfl, -⟩ := List.cons.inj hsplit
        rw [← t.lookupExpression_numberAll (numberedOperands site.instruction.effect)]
        simpa [Assignment.record] using hsettles.redundant_iff hkey
      | cons first pre =>
        obtain ⟨rfl, hrest⟩ := List.cons.inj hsplit
        rw [ih hrest, hkeys]
        simp [Assignment.record, or_assoc]

/-- Every record reports how an instruction was settled, and the keys from then on stay. -/
theorem exists_settles_of_mem (h : r ∈ recordsFrom ordered p t sites) :
    ∃ site a before after, r = Assignment.record p site a ∧ Table.Settles before after (some a) ∧
      ∀ key k, after.lookupExpression key = some k →
        (scan ordered t sites).1.lookupExpression key = some k := by
  induction sites generalizing t with
  | nil => simp [recordsFrom, scan] at h
  | cons site sites ih =>
    rw [recordsFrom_cons] at h
    rcases List.mem_append.mp h with hfirst | hrest
    · have hsettles := t.settles_assign ordered site.instruction.result site.instruction.effect
      rw [Option.mem_toList, Option.map_eq_some_iff] at hfirst
      obtain ⟨a, ha, rfl⟩ := hfirst
      rw [ha] at hsettles
      refine ⟨site, a, _, _, rfl, hsettles, ?_⟩
      intro key k hk
      exact scan_keeps (P := (·.lookupExpression key = some k))
        (fun t r h ↦ Table.lookupExpression_answer_of_some h r) hk ordered sites
    · exact ih hrest

/-- Only expressions are redundant. -/
theorem isExpression_of_redundant (h : r ∈ recordsFrom ordered p t sites)
    (hredundant : r.redundant = true) : r.source.isExpression = true := by
  obtain ⟨site, a, before, after, rfl, hsettles, -⟩ := exists_settles_of_mem h
  exact hsettles.isExpression_of_redundant hredundant

/-- The number of an expression is the one that its key has in the end. -/
theorem lookupExpression_of_mem (h : r ∈ recordsFrom ordered p t sites) {key : String}
    (hkey : r.source = .expression key) :
    (scan ordered t sites).1.lookupExpression key = some r.destination := by
  obtain ⟨site, a, before, after, rfl, hsettles, hstays⟩ := exists_settles_of_mem h
  exact hstays key _ (hsettles.lookupExpression_destination hkey)

end

/-! ### Counting -/

/-- Whether the key of the record was entered. -/
def Record.enters (r : Record) : Bool := r.source.isExpression && !r.redundant

/-- The expressions are those that were found and those that were entered. -/
theorem length_redundant_add_countP_enters {records : List Record}
    (h : ∀ r ∈ records, r.redundant = true → r.source.isExpression = true) :
    (records.filter Record.redundant).length + records.countP Record.enters =
      records.countP (·.source.isExpression) := by
  have hfound : (records.filter Record.redundant).countP (·.source.isExpression) =
      (records.filter Record.redundant).length := by
    rw [List.countP_eq_length]
    intro r hr
    exact h r (List.mem_filter.mp hr).1 (List.mem_filter.mp hr).2
  rw [List.countP_eq_countP_filter_add records (·.source.isExpression) Record.redundant, hfound,
    List.countP_filter]
  rfl

/-- What an instruction takes from the counter after its operands, it enters as a key. -/
theorem Table.Settles.counts {t t' : Table} {assignment : Option Assignment}
    (h : t.Settles t' assignment) (p : Procedure) (site : Site) :
    let entered := (assignment.map (Assignment.record p site)).toList.countP Record.enters
    t'.expressionCount = t.expressionCount + entered ∧ t'.next = t.next + entered := by
  cases h with
  | pass => exact ⟨rfl, rfl⟩
  | copy values number => exact ⟨rfl, rfl⟩
  | found values key number hfound => exact ⟨rfl, rfl⟩
  | entered values key hnew =>
    refine ⟨?_, rfl⟩
    have hsize : (t.expressions.insert key t.next).size = t.expressions.size + 1 := by
      rw [Std.ExtTreeMap.size_insert, Std.ExtTreeMap.contains_eq_isSome_getElem?]
      rw [lookupExpression] at hnew
      simp [hnew]
    exact hsize

/-- The value is an operand that is numbered, and has no number in the table when the first
instruction that has it numbered comes up. (If the other operand is numbered before it, that makes
no difference: either it is the same value, or it leaves this one alone.) -/
def ComesUnnumbered (ordered : Bool) (t : Table) (sites : List Site) (v : ValueId) : Prop :=
  ∃ pre site post, sites = pre ++ site :: post ∧ v ∈ numberedOperands site.instruction.effect ∧
    (∀ earlier ∈ pre, v ∉ numberedOperands earlier.instruction.effect) ∧
    (scan ordered t pre).1.lookupValue v = none

/-- The operands that a scan takes numbers from the counter for. -/
def newOperands (ordered : Bool) (t : Table) : List Site → Finset ValueId
  | [] => ∅
  | site :: sites =>
    t.unnumbered (numberedOperands site.instruction.effect) ∪
      newOperands ordered (t.assign ordered site.instruction.result site.instruction.effect).1 sites

/-- An effect gives each operand that it has numbered a number. -/
theorem numberedOperands_subset_touched (result : ValueId) (effect : Effect) :
    numberedOperands effect ⊆ touched result effect := by
  cases effect <;> simp [numberedOperands, touched]

section

variable {ordered : Bool} {t : Table} {site : Site} {sites : List Site} {v : ValueId}

/-- A value that has no number behind an instruction is none of the operands that it numbers. -/
theorem notMem_operands_of_unnumbered
    (h : (t.assign ordered site.instruction.result
      site.instruction.effect).1.lookupValue v = none) :
    v ∉ numberedOperands site.instruction.effect := by
  intro hmem
  have htouched := numberedOperands_subset_touched site.instruction.result _ hmem
  have hsome := (t.isSome_lookupValue_assign ordered _ _ v).mpr (.inl htouched)
  simp [h] at hsome

/-- A value that comes without a number has none at the start. -/
theorem ComesUnnumbered.lookupValue_eq_none (h : ComesUnnumbered ordered t sites v) :
    t.lookupValue v = none := by
  obtain ⟨pre, site, post, -, -, -, hnone⟩ := h
  rw [← Option.not_isSome_iff_eq_none] at hnone ⊢
  intro hsome
  exact hnone ((isSome_lookupValue_scan ordered t pre v).mpr (.inr hsome))

/-- The first instruction is the one to number a value without a number, or it has nothing to do
with it. -/
theorem comesUnnumbered_cons :
    ComesUnnumbered ordered t (site :: sites) v ↔
      v ∈ t.unnumbered (numberedOperands site.instruction.effect) ∨
        ComesUnnumbered ordered
          (t.assign ordered site.instruction.result site.instruction.effect).1 sites v := by
  rw [Table.mem_unnumbered]
  constructor
  · rintro ⟨pre, found, post, hsplit, hmem, hearlier, hnone⟩
    cases pre with
    | nil =>
      obtain ⟨rfl, -⟩ := List.cons.inj hsplit
      exact .inl ⟨hmem, hnone⟩
    | cons first pre =>
      obtain ⟨rfl, rfl⟩ := List.cons.inj hsplit
      exact .inr ⟨pre, found, post, rfl, hmem,
        fun earlier h ↦ hearlier earlier (List.mem_cons_of_mem _ h), hnone⟩
  · rintro (⟨hmem, hnone⟩ | hrest)
    · exact ⟨[], site, sites, rfl, hmem, by simp, hnone⟩
    · -- what the others find without a number, the first instruction has not numbered
      have hfirst := notMem_operands_of_unnumbered hrest.lookupValue_eq_none
      obtain ⟨pre, found, post, rfl, hmem, hearlier, hnone⟩ := hrest
      exact ⟨site :: pre, found, post, rfl, hmem, List.forall_mem_cons.mpr ⟨hfirst, hearlier⟩,
        hnone⟩

/-- The new operands of a scan are those that come without a number. -/
theorem mem_newOperands : v ∈ newOperands ordered t sites ↔ ComesUnnumbered ordered t sites v := by
  induction sites generalizing t with
  | nil => simp [newOperands, ComesUnnumbered]
  | cons site sites ih => rw [newOperands, Finset.mem_union, ih, comesUnnumbered_cons]

/-- A scan advances the count of expressions by the keys that it enters. -/
theorem expressionCount_scan (ordered : Bool) (p : Procedure) (t : Table) (sites : List Site) :
    (scan ordered t sites).1.expressionCount =
      t.expressionCount + (recordsFrom ordered p t sites).countP Record.enters := by
  induction sites generalizing t with
  | nil => rfl
  | cons site sites ih =>
    have hsettles := t.settles_assign ordered site.instruction.result site.instruction.effect
    have hfirst := (hsettles.counts p site).1
    rw [t.expressionCount_numberAll] at hfirst
    rw [recordsFrom_cons, List.countP_append, ← Nat.add_assoc, ← hfirst]
    exact ih _

/-- The operands that the first instruction numbers are not new to the others. -/
theorem disjoint_newOperands :
    Disjoint (t.unnumbered (numberedOperands site.instruction.effect))
      (newOperands ordered (t.assign ordered site.instruction.result site.instruction.effect).1
        sites) := by
  rw [Finset.disjoint_left]
  intro v hfirst hrest
  rw [mem_newOperands] at hrest
  exact notMem_operands_of_unnumbered hrest.lookupValue_eq_none
    ((t.mem_unnumbered _ v).mp hfirst).1

/-- A scan advances the counter by the keys that it enters and the new operands. -/
theorem next_scan (ordered : Bool) (p : Procedure) (t : Table) (sites : List Site) :
    (scan ordered t sites).1.next =
      t.next + (recordsFrom ordered p t sites).countP Record.enters +
        (newOperands ordered t sites).card := by
  induction sites generalizing t with
  | nil => rfl
  | cons site sites ih =>
    have hsettles := t.settles_assign ordered site.instruction.result site.instruction.effect
    have hfirst := (hsettles.counts p site).2
    rw [t.next_numberAll] at hfirst
    have hrest := ih (t.assign ordered site.instruction.result site.instruction.effect).1
    rw [hfirst] at hrest
    rw [recordsFrom_cons, List.countP_append, newOperands,
      Finset.card_union_of_disjoint disjoint_newOperands]
    refine hrest.trans ?_
    ac_rfl

end

/-! ### Whole procedures -/

/-- An instruction that is numbered has an expression for its source exactly if it is an operator.
-/
theorem isExpression_of_assign {ordered : Bool} {t : Table} {inst : Instruction} {a : Assignment}
    (h : (t.assign ordered inst.result inst.effect).2 = some a) :
    a.source.isExpression = inst.opcode.isBinary := by
  obtain ⟨opcode, operands, result⟩ := inst
  cases opcode <;> rcases operands with _ | ⟨x, _ | ⟨y, rest⟩⟩ <;> cases h <;> rfl

/-- There is a record for every instruction that is not inert, and it is that of an expression
exactly if the instruction is an operator. -/
theorem map_subject_recordsFrom (ordered : Bool) (p : Procedure) (t : Table) (sites : List Site) :
    (recordsFrom ordered p t sites).map (fun r ↦ (r.subject, r.source.isExpression)) =
      (sites.filter (!·.instruction.isInert)).map fun site ↦
        (subjectOf p site, site.instruction.opcode.isBinary) := by
  induction sites generalizing t with
  | nil => rfl
  | cons site sites ih =>
    rw [recordsFrom_cons, List.map_append, ih]
    by_cases hinert : site.instruction.isInert = true
    · rw [(assign_eq_none_iff ..).mpr (site.instruction.isInert_iff.mp hinert)]
      simp [hinert]
    · obtain ⟨a, ha⟩ := Option.ne_none_iff_exists'.mp
        (mt (assign_eq_none_iff ordered t site.instruction.result site.instruction.effect).mp
          (mt site.instruction.isInert_iff.mpr hinert))
      rw [ha, List.filter_cons_of_pos (by simpa using hinert), List.map_cons,
        ← isExpression_of_assign ha]
      rfl

/-- What a report says of keys that repeat, and what the table and its counter have gained. There is
a record for every instruction that is not inert, with an expression for its source exactly if the
instruction is an operator. Such a record is redundant exactly if its key was in the table at the
start or is that of an earlier record, and the others never are; two of them have the same number
exactly if they have the same key. The table gains a key for each of them that is not redundant, and
the counter advances by the keys gained and by the values that came up without a number. -/
structure RepeatsKeys (p : Procedure) (t t' : Table) (report : Report)
    (unnumbered : ValueId → Prop) : Prop where
  subjects : report.records.map (fun r ↦ (r.subject, r.source.isExpression)) =
    (p.sites.filter (!·.instruction.isInert)).map fun site ↦
      (subjectOf p site, site.instruction.opcode.isBinary)
  redundant_iff : ∀ pre r post key, report.records = pre ++ r :: post →
    r.source = .expression key → (r.redundant = true ↔
      (t.lookupExpression key).isSome = true ∨ ∃ earlier ∈ pre, earlier.source = .expression key)
  copy_not_redundant : ∀ r ∈ report.records, r.source.isExpression = false → r.redundant = false
  destination_iff : ∀ r ∈ report.records, ∀ r' ∈ report.records, ∀ key key',
    r.source = .expression key → r'.source = .expression key' →
      (r.destination = r'.destination ↔ key = key')
  growth : ∃ growth, t'.expressionCount = t.expressionCount + growth ∧
    report.redundant.length + growth = report.records.countP (·.source.isExpression) ∧
    ∃ fresh : Finset ValueId, (∀ v, v ∈ fresh ↔ unnumbered v) ∧
      t'.next = t.next + growth + fresh.card

/-- All this holds on every table whose keys are apart. -/
theorem repeatsKeys_numberInto {t : Table} (ht : t.KeysApart) (ordered : Bool) (p : Procedure) :
    RepeatsKeys p t (numberInto ordered p t).1 (numberInto ordered p t).2
      (ComesUnnumbered ordered t p.sites) := by
  have hapart : (scan ordered t p.sites).1.KeysApart :=
    scan_keeps Table.keysApart_answer ht ordered p.sites
  have hexpression : ∀ r ∈ recordsFrom ordered p t p.sites, r.redundant = true →
      r.source.isExpression = true := fun r hr ↦ isExpression_of_redundant hr
  refine ⟨map_subject_recordsFrom ordered p t p.sites,
    fun pre r post key hsplit hkey ↦ redundant_iff_of_split hsplit hkey, ?_, ?_, ?_⟩
  · intro r hr hcopy
    by_contra hredundant
    rw [hexpression r hr (by simpa using hredundant)] at hcopy
    cases hcopy
  · intro r hr r' hr' key key' hkey hkey'
    have hlookup := lookupExpression_of_mem hr hkey
    have hlookup' := lookupExpression_of_mem hr' hkey'
    constructor
    · intro hsame
      rw [hsame] at hlookup
      exact hapart.injective key key' _ hlookup hlookup'
    · rintro rfl
      exact Option.some.inj (hlookup.symm.trans hlookup')
  · exact ⟨_, expressionCount_scan ordered p t p.sites,
      length_redundant_add_countP_enters hexpression, newOperands ordered t p.sites,
      fun v ↦ mem_newOperands, next_scan ordered p t p.sites⟩

end BlockFlow.Numbering
