import BlockFlow.Proofs.Numbering.Classes
import Mathlib.Data.List.Induction

/-!
# Scans as symbolic scans

One instruction takes a table that tracks a symbolic scan to a table that tracks the scan with the
instruction run on terms, and what it reports is what the terms say. By induction over the scan the
same holds after every prefix. Main statement: numbered values have equal numbers exactly if their
terms are the same, and a record is redundant exactly if its instruction computes a term that was
computed before.
-/

namespace BlockFlow.Numbering

variable {ordered : Bool} {t : Table} {s : Symbolic} {meaning : Number → Term}

/-! ### One instruction -/

/-- What numbering an instruction reports agrees with what the instruction does to terms. -/
structure Assignment.Agrees (ordered : Bool) (s : Symbolic) (inst : Instruction)
    (a : Assignment) : Prop where
  source : (∃ key, a.source = .expression key) ↔ (s.computes? inst).isSome = true
  redundant : a.redundant = true ↔
    ∃ term, s.computes? inst = some term ∧ ∃ earlier ∈ s.computed, earlier.Same ordered term

namespace Tracks

/-- A value takes over the term of another one by taking over its number. -/
private theorem copy (h : Tracks ordered t s meaning) (source target : ValueId) :
    let request := t.numberValue source
    ∃ meaning', Tracks ordered (request.1.aliasValue target request.2.number).1
      (s.assign target (s.store source)) meaning' := by
  obtain ⟨meaning', h', hnumber, -⟩ := h.numberValue source
  exact ⟨meaning', h'.aliasValue target hnumber⟩

/-- Numbering an instruction tracks its run on terms, and the report agrees with it. -/
theorem assign (h : Tracks ordered t s meaning) (inst : Instruction) :
    (∃ meaning',
      Tracks ordered (t.assign ordered inst.result inst.effect).1 (s.step inst) meaning') ∧
      ∀ a, (t.assign ordered inst.result inst.effect).2 = some a → a.Agrees ordered s inst := by
  rw [Symbolic.step_eq]
  have hcomputes := s.computes?_eq inst
  cases heffect : inst.effect with
  | load address =>
    rw [heffect] at hcomputes
    refine ⟨h.copy address inst.result, ?_⟩
    rintro a ⟨⟩
    constructor <;> simp [hcomputes]
  | store value address =>
    rw [heffect] at hcomputes
    refine ⟨h.copy value address, ?_⟩
    rintro a ⟨⟩
    constructor <;> simp [hcomputes]
  | compute op lhs rhs =>
    rw [heffect] at hcomputes
    -- numbering the right operand must not take the meaning of the left one away
    obtain ⟨m₁, h₁, hlhs, -⟩ := h.numberValue lhs
    obtain ⟨m₂, h₂, hrhs, hkept⟩ := h₁.numberValue rhs
    obtain ⟨m₃, h₃, hnumber, hexisted⟩ :=
      h₂.numberExpression (isBinary_of_effect heffect) (hkept _ _ hlhs) hrhs
    refine ⟨⟨m₃, h₃.aliasValue inst.result hnumber⟩, ?_⟩
    rintro a ⟨⟩
    constructor
    · simp [hcomputes]
    · simp only [hcomputes, Option.some.injEq, exists_eq_left']
      exact hexisted
  | none => exact ⟨⟨meaning, h⟩, fun a ha ↦ nomatch ha⟩

/-- Numbered values have one number exactly if their terms are the same. -/
theorem number_eq_iff (h : Tracks ordered t s meaning) {v w : ValueId} {k l : Number}
    (hv : t.lookupValue v = some k) (hw : t.lookupValue w = some l) :
    k = l ↔ (s.store v).Same ordered (s.store w) := by
  obtain ⟨hk, hkv⟩ := h.value v k hv
  obtain ⟨hl, hlw⟩ := h.value w l hw
  constructor
  · rintro rfl
    exact hkv.symm.trans hlw
  · intro hsame
    exact h.injective k l hk hl (hkv.trans (hsame.trans hlw.symm))

end Tracks

/-! ### Whole scans -/

/-- The last instruction is numbered on top of what the others leave. -/
theorem scan_append_singleton (ordered : Bool) (t : Table) (sites : List Site) (site : Site) :
    scan ordered t (sites ++ [site]) =
      let (t', steps) := scan ordered t sites
      let (t'', assignment) :=
        t'.assign ordered site.instruction.result site.instruction.effect
      (t'', steps ++ [{ site, assignment }]) := by
  induction sites generalizing t with
  | nil => rfl
  | cons first sites ih => simp only [List.cons_append, scan, ih]

/-- The table of a scan tracks the symbolic scan. -/
theorem exists_tracks (ordered : Bool) (sites : List Site) :
    ∃ meaning, Tracks ordered (scan ordered .empty sites).1 (Symbolic.run sites) meaning := by
  induction sites using List.reverseRecOn with
  | nil => exact ⟨.var, Tracks.empty ordered .var⟩
  | append_singleton sites site ih =>
    obtain ⟨meaning, h⟩ := ih
    rw [scan_append_singleton, Symbolic.run_append_singleton]
    exact (h.assign site.instruction).1

/-! ### Records -/

/-- The number of instructions that have an effect: each of them gets a record. -/
def effectCount (sites : List Site) : Nat :=
  sites.countP fun site ↦ site.instruction.effect ≠ .none

/-- An effect is all that it takes to be numbered. -/
theorem assign_eq_none_iff (ordered : Bool) (t : Table) (result : ValueId)
    (effect : Effect) : (t.assign ordered result effect).2 = none ↔ effect = .none := by
  cases effect <;> simp [Table.assign]

/-- The records of a scan from an empty table. -/
private def recordsOf (ordered : Bool) (p : Procedure) (sites : List Site) : List Record :=
  (scan ordered .empty sites).2.filterMap (Step.record? p)

private theorem recordsOf_append_singleton (ordered : Bool) (p : Procedure) (sites : List Site)
    (site : Site) :
    recordsOf ordered p (sites ++ [site]) = recordsOf ordered p sites ++
      (Step.record? p ⟨site, ((scan ordered .empty sites).1.assign ordered
        site.instruction.result site.instruction.effect).2⟩).toList := by
  unfold recordsOf
  rw [scan_append_singleton, List.filterMap_append]
  rfl

/-- There is one record for every effect. -/
private theorem length_recordsOf (ordered : Bool) (p : Procedure) (sites : List Site) :
    (recordsOf ordered p sites).length = effectCount sites := by
  induction sites using List.reverseRecOn with
  | nil => rfl
  | append_singleton sites site ih =>
    have hnone := assign_eq_none_iff ordered (scan ordered .empty sites).1
      site.instruction.result site.instruction.effect
    rw [recordsOf_append_singleton, List.length_append, ih]
    by_cases h : site.instruction.effect = .none
    · rw [hnone.mpr h]
      simp [effectCount, Step.record?, h]
    · obtain ⟨a, ha⟩ := Option.ne_none_iff_exists'.mp (mt hnone.mp h)
      simp [effectCount, Step.record?, ha, h]

/-- Every record is that of an instruction, run after those in front of it. -/
private theorem exists_site_of_record (ordered : Bool) (p : Procedure) (sites : List Site)
    {i : Nat} {record : Record} (h : (recordsOf ordered p sites)[i]? = some record) :
    ∃ pre site post, sites = pre ++ site :: post ∧ site.instruction.effect ≠ .none ∧
      i = effectCount pre ∧ ∃ a : Assignment, a.Agrees ordered (Symbolic.run pre) site.instruction ∧
        Step.record? p ⟨site, some a⟩ = some record := by
  induction sites using List.reverseRecOn with
  | nil => simp [recordsOf, scan] at h
  | append_singleton sites site ih =>
    rw [recordsOf_append_singleton] at h
    by_cases hi : i < (recordsOf ordered p sites).length
    · rw [List.getElem?_append_left hi] at h
      obtain ⟨pre, found, post, rfl, hfound⟩ := ih h
      exact ⟨pre, found, post ++ [site], by simp, hfound⟩
    · rw [List.getElem?_append_right (Nat.not_lt.mp hi)] at h
      obtain ⟨meaning, htracks⟩ := exists_tracks ordered sites
      have hagrees := (htracks.assign site.instruction).2
      have hnone := assign_eq_none_iff ordered (scan ordered .empty sites).1
        site.instruction.result site.instruction.effect
      cases ha : ((scan ordered .empty sites).1.assign ordered site.instruction.result
          site.instruction.effect).2 with
      | none => simp [ha, Step.record?] at h
      | some a =>
        have hlast : i = (recordsOf ordered p sites).length ∧
            Step.record? p ⟨site, some a⟩ = some record := by
          rw [ha, Step.record?, Option.map_some, Option.toList_some, List.getElem?_singleton] at h
          split at h
          · next hzero => exact ⟨by omega, h⟩
          · cases h
        have heffect : site.instruction.effect ≠ .none := by
          intro hno
          rw [hnone.mpr hno] at ha
          cases ha
        exact ⟨sites, site, [], rfl, heffect, hlast.1.trans (length_recordsOf ordered p sites), a,
          hagrees a ha, hlast.2⟩

/-- Numbering a procedure from an empty table. After every prefix of the scan, numbered values have
equal numbers exactly if the symbolic scan gives them the same term. Every instruction with an
effect has a record, in scan order; it is the record of an expression exactly if the instruction
computes a term, and redundant exactly if an instruction in front of it computed the same term. -/
theorem numbers_are_classes_of_terms (ordered : Bool) (p : Procedure) :
    (∀ pre post, p.sites = pre ++ post → ∀ v w k l,
      (scan ordered .empty pre).1.lookupValue v = some k →
      (scan ordered .empty pre).1.lookupValue w = some l →
      (k = l ↔ ((Symbolic.run pre).store v).Same ordered ((Symbolic.run pre).store w))) ∧
    (numberInto ordered p .empty).2.records.length = effectCount p.sites ∧
    ∀ i record, (numberInto ordered p .empty).2.records[i]? = some record →
      ∃ pre site post, p.sites = pre ++ site :: post ∧ site.instruction.effect ≠ .none ∧
        i = effectCount pre ∧ record.block = site.block.id ∧
        record.result = site.instruction.result ∧
        ((∃ key, record.source = .expression key) ↔
          ((Symbolic.run pre).computes? site.instruction).isSome = true) ∧
        (record.redundant = true ↔ ∃ term,
          (Symbolic.run pre).computes? site.instruction = some term ∧
            ∃ earlier ∈ (Symbolic.run pre).computed, earlier.Same ordered term) := by
  refine ⟨?_, length_recordsOf ordered p p.sites, ?_⟩
  · intro pre post _ v w k l hv hw
    obtain ⟨meaning, h⟩ := exists_tracks ordered pre
    exact h.number_eq_iff hv hw
  · intro i record hrecord
    obtain ⟨pre, site, post, hsites, heffect, hi, a, hagrees, ⟨⟩⟩ :=
      exists_site_of_record ordered p p.sites hrecord
    exact ⟨pre, site, post, hsites, heffect, hi, rfl, rfl, hagrees.source, hagrees.redundant⟩

/-- The second block computes what the first one does, with operands crossed at two depths. -/
def crossing : Procedure where
  name := "crossing"
  values := #[]
  blocks := #[
    { id := 0, name := "straight", successors := [], predecessors := []
      instructions := #[⟨.add, [0, 1], 4⟩, ⟨.mul, [4, 2], 5⟩, ⟨.store, [5, 3], 6⟩] },
    { id := 0, name := "crossed", successors := [], predecessors := []
      instructions := #[⟨.add, [1, 0], 7⟩, ⟨.mul, [2, 7], 8⟩, ⟨.sub, [8], 9⟩, ⟨.load, [3], 10⟩] }]

/-- The crossed product is redundant, so its term was computed before; it is what is loaded in the
end, so the load has the same term. -/
theorem crossing_classes :
    (numberInto true crossing .empty).2.records[4]?.map Record.redundant = some true ∧
    (∃ pre site post term, crossing.sites = pre ++ site :: post ∧ 4 = effectCount pre ∧
      (Symbolic.run pre).computes? site.instruction = some term ∧
        ∃ earlier ∈ (Symbolic.run pre).computed, earlier.Same true term) ∧
    ((Symbolic.run crossing.sites).store 8).Same true ((Symbolic.run crossing.sites).store 10) := by
  have hproduct : (scan true .empty crossing.sites).1.lookupValue 8 = some 5 := by decide +kernel
  have hload : (scan true .empty crossing.sites).1.lookupValue 10 = some 5 := by decide +kernel
  have hmark :
      (numberInto true crossing .empty).2.records[4]?.map Record.redundant = some true := by
    decide +kernel
  obtain ⟨hvalues, -, hrecords⟩ := numbers_are_classes_of_terms true crossing
  obtain ⟨record, hrecord, hredundant⟩ := Option.map_eq_some_iff.mp hmark
  obtain ⟨pre, site, post, hsites, -, hi, -, -, -, hiff⟩ := hrecords 4 record hrecord
  obtain ⟨term, hterm, hearlier⟩ := hiff.mp hredundant
  refine ⟨hmark, ⟨pre, site, post, term, hsites, hi, hterm, hearlier⟩, ?_⟩
  exact (hvalues crossing.sites [] (by simp) 8 10 5 5 hproduct hload).mp rfl

end BlockFlow.Numbering
