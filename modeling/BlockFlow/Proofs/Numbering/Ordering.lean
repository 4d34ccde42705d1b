import BlockFlow.Proofs.Numbering.Scan
import Mathlib.Data.List.Forall2

/-!
# Ordering operands only merges

Where the operands of commutative operators are put in order, expressions have other keys and, from
the first merge on, values have other numbers. Both ways of numbering follow the same symbolic scan,
and terms that are equal are also the same up to the order of operands; so whatever the plain scan
finds equal is found equal by the ordering scan too. Which values have numbers, and which
instructions have records, depends on the instructions alone.
-/

namespace BlockFlow.Numbering

/-- Equal terms are the same up to the order of operands. -/
theorem Term.Same.of_plain {s t : Term} (h : s.Same false t) : s.Same true t := by
  change s = t at h
  subst h
  exact .refl s

/-! ### Which values have numbers -/

/-- The values that have a number once an effect is numbered whose instruction has the given
result. -/
def touched (result : ValueId) : Effect → List ValueId
  | .load address => [address, result]
  | .store value address => [value, address]
  | .compute _ lhs rhs => [lhs, rhs, result]
  | .none => []

namespace Table

variable (t : Table)

/-- Expressions are no values. -/
theorem lookupValue_numberExpression (text : String) (v : ValueId) :
    (t.numberExpression text).1.lookupValue v = t.lookupValue v := by
  unfold numberExpression
  split <;> rfl

/-- An effect gives numbers to the values that it touches, and takes none away. -/
theorem isSome_lookupValue_assign (ordered : Bool) (result : ValueId) (effect : Effect)
    (v : ValueId) :
    ((t.assign ordered result effect).1.lookupValue v).isSome = true ↔
      v ∈ touched result effect ∨ (t.lookupValue v).isSome = true := by
  cases effect with
  | load address =>
    simp only [assign, lookupValue_aliasValue, lookupValue_numberValue, touched]
    grind
  | store value address =>
    simp only [assign, lookupValue_aliasValue, lookupValue_numberValue, touched]
    grind
  | compute op lhs rhs =>
    simp only [assign, lookupValue_aliasValue, lookupValue_numberExpression,
      lookupValue_numberValue, touched]
    grind
  | none => simp [assign, touched]

end Table

/-- A scan gives numbers to the values that its instructions touch. -/
theorem isSome_lookupValue_scan (ordered : Bool) (t : Table) (sites : List Site) (v : ValueId) :
    ((scan ordered t sites).1.lookupValue v).isSome = true ↔
      (∃ site ∈ sites, v ∈ touched site.instruction.result site.instruction.effect) ∨
        (t.lookupValue v).isSome = true := by
  induction sites generalizing t with
  | nil => simp [scan]
  | cons site sites ih =>
    rw [scan, ih, Table.isSome_lookupValue_assign]
    simp only [List.mem_cons, exists_eq_or_imp, or_assoc, or_left_comm]

/-! ### Records -/

/-- The records are of the same instruction, and the second is redundant if the first is. -/
structure Record.MergesInto (r r' : Record) : Prop where
  block : r.block = r'.block
  result : r.result = r'.result
  instruction : r.instruction = r'.instruction
  redundant : r.redundant = true → r'.redundant = true

/-- The steps are at the same instruction, which both number or both pass over, and the second is
redundant if the first is. -/
structure Step.MergesInto (s s' : Step) : Prop where
  site : s.site = s'.site
  assignment : Option.Rel (fun a a' : Assignment ↦ a.redundant = true → a'.redundant = true)
    s.assignment s'.assignment

/-- What both ways of numbering report of an instruction is read off the same terms. -/
theorem Tracks.assign_mergesInto {t t' : Table} {s : Symbolic} {meaning meaning' : Number → Term}
    (h : Tracks false t s meaning) (h' : Tracks true t' s meaning') (inst : Instruction) :
    Option.Rel (fun a a' : Assignment ↦ a.redundant = true → a'.redundant = true)
      (t.assign false inst.result inst.effect).2 (t'.assign true inst.result inst.effect).2 := by
  have hagrees := (h.assign inst).2
  have hagrees' := (h'.assign inst).2
  by_cases heffect : inst.effect = .none
  · rw [(assign_eq_none_iff ..).mpr heffect, (assign_eq_none_iff ..).mpr heffect]
    exact .none
  · obtain ⟨a, ha⟩ := Option.ne_none_iff_exists'.mp
      (mt (assign_eq_none_iff false t inst.result inst.effect).mp heffect)
    obtain ⟨a', ha'⟩ := Option.ne_none_iff_exists'.mp
      (mt (assign_eq_none_iff true t' inst.result inst.effect).mp heffect)
    rw [ha, ha']
    refine .some fun hredundant ↦ ?_
    obtain ⟨term, hterm, earlier, hearlier, hsame⟩ := (hagrees a ha).redundant.mp hredundant
    exact (hagrees' a' ha').redundant.mpr ⟨term, hterm, earlier, hearlier, hsame.of_plain⟩

/-- Step by step, the plain scan merges into the ordering scan. -/
theorem scan_mergesInto (sites : List Site) :
    List.Forall₂ Step.MergesInto (scan false .empty sites).2 (scan true .empty sites).2 := by
  induction sites using List.reverseRecOn with
  | nil => exact .nil
  | append_singleton sites site ih =>
    obtain ⟨meaning, h⟩ := exists_tracks false sites
    obtain ⟨meaning', h'⟩ := exists_tracks true sites
    rw [scan_append_singleton, scan_append_singleton]
    have hlast := h.assign_mergesInto h' site.instruction
    exact List.rel_append ih (.cons ⟨rfl, hlast⟩ .nil)

/-- Steps that merge have records that do, or none. -/
theorem Step.MergesInto.record? {s s' : Step} (h : s.MergesInto s') (p : Procedure) :
    Option.Rel Record.MergesInto (s.record? p) (s'.record? p) := by
  obtain ⟨site, assignment⟩ := s
  obtain ⟨site', assignment'⟩ := s'
  obtain ⟨rfl, hassignment⟩ := h
  cases hassignment with
  | none => exact .none
  | some hredundant => exact .some ⟨rfl, rfl, rfl, hredundant⟩

/-- The records of the plain scan merge into those of the ordering scan. -/
theorem records_mergeInto (p : Procedure) :
    List.Forall₂ Record.MergesInto (number false p).records (number true p).records :=
  List.rel_filterMap (fun _ _ h ↦ h.record? p) (scan_mergesInto p.sites)

/-- Records that merge into others are redundant no more often. -/
theorem length_redundant_le {records records' : List Record}
    (h : List.Forall₂ Record.MergesInto records records') :
    (records.filter Record.redundant).length ≤ (records'.filter Record.redundant).length := by
  induction h with
  | nil => exact Nat.le_refl 0
  | @cons r r' records records' hr _ ih =>
    rw [List.filter_cons, List.filter_cons]
    by_cases hredundant : r.redundant = true
    · rw [if_pos hredundant, if_pos (hr.redundant hredundant)]
      exact Nat.succ_le_succ ih
    · rw [if_neg hredundant]
      split
      · exact Nat.le_succ_of_le ih
      · exact ih

/-- Numbering a procedure from an empty table, plainly and with operands put in order. After every
prefix of the scan the same values have numbers, and values that have one number in the plain scan
have one number in the ordering scan. There are records of the same instructions in the same order,
and every one that is redundant in the plain scan is so in the ordering scan. -/
theorem ordering_only_merges (p : Procedure) :
    (∀ pre post, p.sites = pre ++ post →
      (∀ v, ((scan false .empty pre).1.lookupValue v).isSome =
        ((scan true .empty pre).1.lookupValue v).isSome) ∧
      ∀ v w k, (scan false .empty pre).1.lookupValue v = some k →
        (scan false .empty pre).1.lookupValue w = some k →
        ∃ l, (scan true .empty pre).1.lookupValue v = some l ∧
          (scan true .empty pre).1.lookupValue w = some l) ∧
    List.Forall₂ Record.MergesInto (number false p).records (number true p).records ∧
    (number false p).redundant.length ≤ (number true p).redundant.length := by
  refine ⟨?_, records_mergeInto p, length_redundant_le (records_mergeInto p)⟩
  intro pre post _
  have hsame (v : ValueId) : ((scan false .empty pre).1.lookupValue v).isSome =
      ((scan true .empty pre).1.lookupValue v).isSome := by
    rw [Bool.eq_iff_iff, isSome_lookupValue_scan, isSome_lookupValue_scan]
  refine ⟨hsame, ?_⟩
  intro v w k hv hw
  obtain ⟨meaning, h⟩ := exists_tracks false pre
  obtain ⟨meaning', h'⟩ := exists_tracks true pre
  obtain ⟨l, hl⟩ := Option.isSome_iff_exists.mp (hsame v ▸ Option.isSome_of_eq_some hv)
  obtain ⟨l', hl'⟩ := Option.isSome_iff_exists.mp (hsame w ▸ Option.isSome_of_eq_some hw)
  have hterms := (h.number_eq_iff hv hw).mp rfl
  obtain rfl := (h'.number_eq_iff hl hl').mpr hterms.of_plain
  exact ⟨l, hl, hl'⟩

/-- A sum that is computed three times, the last time with its operands swapped, and a difference
whose operands may not be. -/
def swapped : Procedure where
  name := "swapped"
  values := #[]
  blocks := #[
    { id := 0, name := "straight", successors := [], predecessors := []
      instructions := #[⟨.add, [0, 1], 2⟩, ⟨.add, [0, 1], 3⟩] },
    { id := 1, name := "swapped", successors := [], predecessors := []
      instructions := #[⟨.add, [1, 0], 4⟩, ⟨.sub, [0, 1], 5⟩, ⟨.sub, [1, 0], 6⟩] }]

/-- The sums that are equal before any operand is swapped stay so, and the third one joins them. -/
theorem swapped_merges :
    (scan false .empty swapped.sites).1.lookupValue 2 = some 3 ∧
    (scan false .empty swapped.sites).1.lookupValue 3 = some 3 ∧
    (∃ l, (scan true .empty swapped.sites).1.lookupValue 2 = some l ∧
      (scan true .empty swapped.sites).1.lookupValue 3 = some l) ∧
    (number false swapped).redundant.map Record.result = [3] ∧
    (number true swapped).redundant.map Record.result = [3, 4] ∧
    (number false swapped).redundant.length ≤ (number true swapped).redundant.length := by
  have hfirst : (scan false .empty swapped.sites).1.lookupValue 2 = some 3 := by decide +kernel
  have hsecond : (scan false .empty swapped.sites).1.lookupValue 3 = some 3 := by decide +kernel
  obtain ⟨hscans, -, hcount⟩ := ordering_only_merges swapped
  have hmerged := (hscans swapped.sites [] (by simp)).2 2 3 3 hfirst hsecond
  exact ⟨hfirst, hsecond, hmerged, by decide +kernel, by decide +kernel, hcount⟩

end BlockFlow.Numbering
