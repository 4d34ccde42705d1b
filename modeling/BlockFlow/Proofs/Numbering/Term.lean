import BlockFlow.Procedure

/-!
# Terms

A term says how a value was computed from the values that a procedure starts with. Two terms are the
same if they are equal or, where commutative operands are put in order, if they differ only in the
order of the operands of `add` and `mul`, at whatever depth. Main statement: applications are the
same exactly if their operators are and their operands are, straight or crosswise.
-/

namespace BlockFlow.Numbering

/-- A value in terms of initial values. -/
inductive Term where
  /-- What a value is before anything is assigned to it. -/
  | var (v : ValueId)
  | apply (op : Opcode) (lhs rhs : Term)
  deriving DecidableEq, Repr

namespace Term

/-- The least congruence that lets the operands of `add` and `mul` change places. -/
inductive CommEq : Term → Term → Prop
  | refl (s : Term) : CommEq s s
  | symm {s t : Term} : CommEq s t → CommEq t s
  | trans {s t u : Term} : CommEq s t → CommEq t u → CommEq s u
  | apply (op : Opcode) {l l' r r' : Term} :
    CommEq l l' → CommEq r r' → CommEq (apply op l r) (apply op l' r')
  | swap (op : Opcode) (h : op = .add ∨ op = .mul) (l r : Term) :
    CommEq (apply op l r) (apply op r l)

/-- Whether terms count as equal: literally, or up to the order of commutative operands. -/
def Same (ordered : Bool) (s t : Term) : Prop :=
  match ordered with
  | false => s = t
  | true => CommEq s t

/-! ### Commutative equality by structure -/

/-- The terms have the same shape up to crossed operands of `add` and `mul`. -/
private def Aligned : Term → Term → Prop
  | var v, var w => v = w
  | apply op l r, apply op' l' r' =>
    op = op' ∧ (Aligned l l' ∧ Aligned r r' ∨ (op = .add ∨ op = .mul) ∧ Aligned l r' ∧ Aligned r l')
  | _, _ => False

private theorem aligned_refl (s : Term) : Aligned s s := by
  induction s with
  | var v => rfl
  | apply op l r ihl ihr => exact ⟨rfl, .inl ⟨ihl, ihr⟩⟩

private theorem aligned_symm {s t : Term} (h : Aligned s t) : Aligned t s := by
  induction s generalizing t with
  | var v =>
    cases t with
    | var w => exact Eq.symm h
    | apply op l r => exact h
  | apply op l r ihl ihr =>
    cases t with
    | var w => exact h
    | apply op' l' r' =>
      obtain ⟨rfl, ⟨hl, hr⟩ | ⟨hop, hl, hr⟩⟩ := h
      · exact ⟨rfl, .inl ⟨ihl hl, ihr hr⟩⟩
      · exact ⟨rfl, .inr ⟨hop, ihr hr, ihl hl⟩⟩

private theorem aligned_trans {s t u : Term} (h : Aligned s t) (h' : Aligned t u) :
    Aligned s u := by
  induction s generalizing t u with
  | var v =>
    cases t with
    | var w =>
      cases h
      exact h'
    | apply op l r => exact h.elim
  | apply op l r ihl ihr =>
    cases t with
    | var w => exact h.elim
    | apply op₁ l₁ r₁ =>
      cases u with
      | var w => exact h'.elim
      | apply op₂ l₂ r₂ =>
        obtain ⟨rfl, ⟨hl, hr⟩ | ⟨hop, hl, hr⟩⟩ := h
        · obtain ⟨rfl, ⟨hl', hr'⟩ | ⟨hop', hl', hr'⟩⟩ := h'
          · exact ⟨rfl, .inl ⟨ihl hl hl', ihr hr hr'⟩⟩
          · exact ⟨rfl, .inr ⟨hop', ihl hl hl', ihr hr hr'⟩⟩
        · obtain ⟨rfl, ⟨hl', hr'⟩ | ⟨hop', hl', hr'⟩⟩ := h'
          · exact ⟨rfl, .inr ⟨hop, ihl hl hr', ihr hr hl'⟩⟩
          · exact ⟨rfl, .inl ⟨ihl hl hr', ihr hr hl'⟩⟩

private theorem aligned_of_commEq {s t : Term} (h : CommEq s t) : Aligned s t := by
  induction h with
  | refl s => exact aligned_refl s
  | symm _ ih => exact aligned_symm ih
  | trans _ _ ih ih' => exact aligned_trans ih ih'
  | apply op _ _ ihl ihr => exact ⟨rfl, .inl ⟨ihl, ihr⟩⟩
  | swap op h l r => exact ⟨rfl, .inr ⟨h, aligned_refl l, aligned_refl r⟩⟩

private theorem commEq_of_aligned {s t : Term} (h : Aligned s t) : CommEq s t := by
  induction s generalizing t with
  | var v =>
    cases t with
    | var w =>
      cases h
      exact .refl _
    | apply op l r => exact h.elim
  | apply op l r ihl ihr =>
    cases t with
    | var w => exact h.elim
    | apply op' l' r' =>
      obtain ⟨rfl, ⟨hl, hr⟩ | ⟨hop, hl, hr⟩⟩ := h
      · exact .apply op (ihl hl) (ihr hr)
      · exact .trans (.apply op (ihl hl) (ihr hr)) (.swap op hop r' l')

private theorem commEq_iff {s t : Term} : CommEq s t ↔ Aligned s t :=
  ⟨aligned_of_commEq, commEq_of_aligned⟩

/-! ### Laws of sameness -/

variable {ordered : Bool}

theorem Same.refl (s : Term) : Same ordered s s := by
  cases ordered with
  | false => rfl
  | true => exact CommEq.refl s

theorem Same.symm {s t : Term} (h : Same ordered s t) : Same ordered t s := by
  cases ordered with
  | false => exact Eq.symm h
  | true => exact CommEq.symm h

theorem Same.trans {s t u : Term} (h : Same ordered s t) (h' : Same ordered t u) :
    Same ordered s u := by
  cases ordered with
  | false => exact Eq.trans h h'
  | true => exact CommEq.trans h h'

/-- Initial values are the same only as themselves. -/
theorem same_var_iff {v w : ValueId} : Same ordered (var v) (var w) ↔ v = w := by
  cases ordered with
  | false => simp [Same]
  | true => exact commEq_iff

/-- An initial value is not the result of an operator. -/
theorem not_same_var_apply {v : ValueId} {op : Opcode} {l r : Term} :
    ¬Same ordered (var v) (apply op l r) := by
  cases ordered with
  | false => simp [Same]
  | true => exact fun h ↦ commEq_iff.mp h

/-- Applications are the same exactly if their operators are equal and their operands are the same
in order, or crosswise where that is allowed. -/
theorem same_apply_iff {op op' : Opcode} {l r l' r' : Term} :
    Same ordered (apply op l r) (apply op' l' r') ↔
      op = op' ∧ (Same ordered l l' ∧ Same ordered r r' ∨
        (ordered = true ∧ op.isCommutative = true) ∧ Same ordered l r' ∧ Same ordered r l') := by
  cases ordered with
  | false => simp [Same]
  | true =>
    simp only [Same, commEq_iff, Opcode.isCommutative_iff, true_and]
    exact Iff.rfl

/-- Operands that are the same may replace each other. -/
theorem Same.apply (op : Opcode) {l r l' r' : Term} (hl : Same ordered l l')
    (hr : Same ordered r r') : Same ordered (.apply op l r) (.apply op l' r') :=
  same_apply_iff.mpr ⟨rfl, .inl ⟨hl, hr⟩⟩

end Term

end BlockFlow.Numbering
