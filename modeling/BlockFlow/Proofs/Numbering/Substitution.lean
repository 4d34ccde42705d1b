import BlockFlow.Proofs.Numbering.Symbolic
import BlockFlow.Proofs.Procedure.Code

/-!
# Scans under substitutions

A symbolic scan says what code does to any store: the terms of a store that the code is run on are
what the initial values of the scan stand for. Substitutions keep terms the same, so what a scan has
computed before has been computed before wherever the scan is mirrored.
-/

namespace BlockFlow.Numbering

namespace Term

/-- Puts terms for initial values. -/
def subst (θ : ValueId → Term) : Term → Term
  | var v => θ v
  | apply op lhs rhs => apply op (lhs.subst θ) (rhs.subst θ)

/-- Terms that are the same stay so. -/
theorem Same.subst {ordered : Bool} {s t : Term} (h : Same ordered s t) (θ : ValueId → Term) :
    Same ordered (s.subst θ) (t.subst θ) := by
  cases ordered with
  | false => exact congrArg (Term.subst θ) h
  | true =>
    have hcomm : CommEq s t := h
    change CommEq (s.subst θ) (t.subst θ)
    clear h
    induction hcomm with
    | refl s => exact .refl _
    | symm _ ih => exact ih.symm
    | trans _ _ ih ih' => exact ih.trans ih'
    | apply op _ _ ihl ihr => exact .apply op ihl ihr
    | swap op hop l r => exact .swap op hop _ _

/-- The initial value occurs in the term. -/
def Mentions (v : ValueId) : Term → Prop
  | var w => w = v
  | apply _ lhs rhs => lhs.Mentions v ∨ rhs.Mentions v

/-- What does not occur in a term may be substituted by anything. -/
theorem subst_update {t : Term} {v : ValueId} (h : ¬t.Mentions v) (θ : ValueId → Term)
    (value : Term) : t.subst (Function.update θ v value) = t.subst θ := by
  induction t with
  | var w => exact Function.update_of_ne h _ _
  | apply op lhs rhs ihl ihr =>
    obtain ⟨hl, hr⟩ := not_or.mp h
    rw [subst, subst, ihl hl, ihr hr]

end Term

namespace Symbolic

/-- What the instruction computes has been computed before. -/
def Knows (ordered : Bool) (s : Symbolic) (inst : Instruction) : Prop :=
  ∃ term, s.computes? inst = some term ∧ ∃ earlier ∈ s.computed, earlier.Same ordered term

/-- Runs code in order. -/
def after (s : Symbolic) (code : List Instruction) : Symbolic := code.foldl step s

theorem after_append (s : Symbolic) (code more : List Instruction) :
    s.after (code ++ more) = (s.after code).after more :=
  List.foldl_append

/-- The last instruction runs on what the others leave. -/
theorem after_concat (s : Symbolic) (code : List Instruction) (inst : Instruction) :
    s.after (code ++ [inst]) = (s.after code).step inst :=
  s.after_append code [inst]

/-- A scan of sites runs their code. -/
theorem run_eq_after (sites : List Site) : run sites = start.after (sites.map Site.instruction) :=
  List.foldl_map.symm

/-! ### Mirrored scans -/

/-- The second state is the first one under a substitution, and has computed all that the first one
has. It may have computed more. -/
structure Mirrors (θ : ValueId → Term) (s t : Symbolic) : Prop where
  store : ∀ v, t.store v = (s.store v).subst θ
  computed : ∀ term ∈ s.computed, term.subst θ ∈ t.computed

/-- Every state mirrors the start of a scan. -/
theorem Mirrors.of_start (s : Symbolic) : Mirrors s.store start s where
  store _ := rfl
  computed _ hterm := nomatch hterm

namespace Mirrors

variable {θ : ValueId → Term} {s t : Symbolic}

theorem assign (h : Mirrors θ s t) (v : ValueId) (term : Term) :
    Mirrors θ (s.assign v term) (t.assign v (term.subst θ)) := by
  refine ⟨fun w ↦ ?_, h.computed⟩
  rw [store_assign, store_assign]
  split
  · rfl
  · exact h.store w

theorem note (h : Mirrors θ s t) (term : Term) :
    Mirrors θ (s.note term) (t.note (term.subst θ)) := by
  refine ⟨h.store, ?_⟩
  intro other hother
  rcases List.mem_cons.mp hother with rfl | hother
  · exact List.mem_cons_self
  · exact List.mem_cons_of_mem _ (h.computed other hother)

/-- The second state may compute something of its own. -/
theorem note_right (h : Mirrors θ s t) (term : Term) : Mirrors θ s (t.note term) :=
  ⟨h.store, fun other hother ↦ List.mem_cons_of_mem _ (h.computed other hother)⟩

/-- Mirrored states stay so when both run an instruction. -/
theorem step (h : Mirrors θ s t) (inst : Instruction) : Mirrors θ (s.step inst) (t.step inst) := by
  rw [step_eq, step_eq]
  cases inst.effect with
  | load address => simpa only [h.store] using h.assign inst.result (s.store address)
  | store value address => simpa only [h.store] using h.assign address (s.store value)
  | compute op lhs rhs =>
    have hnoted := h.note (.apply op (s.store lhs) (s.store rhs))
    have hassigned := hnoted.assign inst.result (.apply op (s.store lhs) (s.store rhs))
    simpa only [h.store, Term.subst] using hassigned
  | none => exact h

theorem after (h : Mirrors θ s t) (code : List Instruction) :
    Mirrors θ (s.after code) (t.after code) := by
  induction code generalizing s t with
  | nil => exact h
  | cons inst code ih => exact ih (h.step inst)

/-- What has been computed before has been so where the state is mirrored. -/
theorem knows (h : Mirrors θ s t) {ordered : Bool} {inst : Instruction}
    (hs : s.Knows ordered inst) : t.Knows ordered inst := by
  obtain ⟨term, hterm, earlier, hearlier, hsame⟩ := hs
  have hmirrored : t.computes? inst = (s.computes? inst).map (·.subst θ) := by
    rw [computes?_eq, computes?_eq]
    cases inst.effect <;> simp [h.store, Term.subst]
  have hsubst : t.computes? inst = some (term.subst θ) := by rw [hmirrored, hterm]; rfl
  exact ⟨_, hsubst, _, h.computed earlier hearlier, hsame.subst θ⟩

end Mirrors

/-! ### Fresh values -/

/-- The operands that an effect depends on. -/
def usedOperands : Effect → List ValueId
  | .load address => [address]
  | .store value address => [value, address]
  | .compute _ lhs rhs => [lhs, rhs]
  | .none => []

/-- An effect depends on operands of its instruction only. -/
theorem usedOperands_subset (inst : Instruction) : usedOperands inst.effect ⊆ inst.operands := by
  obtain ⟨opcode, operands, result⟩ := inst
  unfold Instruction.effect
  cases opcode <;> rcases operands with _ | ⟨a, _ | ⟨b, rest⟩⟩ <;> simp [usedOperands]

/-- The value still stands for itself, and nothing else has to do with it. -/
structure Fresh (v : ValueId) (s : Symbolic) : Prop where
  store : s.store v = .var v
  others : ∀ w, w ≠ v → ¬(s.store w).Mentions v
  computed : ∀ term ∈ s.computed, ¬term.Mentions v

theorem fresh_start (v : ValueId) : Fresh v start where
  store := rfl
  others _ hw := hw
  computed _ hterm := nomatch hterm

namespace Fresh

variable {v : ValueId} {s : Symbolic}

theorem assign (h : Fresh v s) {w : ValueId} (hw : w ≠ v) {term : Term}
    (hterm : ¬term.Mentions v) : Fresh v (s.assign w term) := by
  refine ⟨?_, ?_, h.computed⟩
  · rw [store_assign, if_neg hw, h.store]
  · intro u hu
    rw [store_assign]
    split
    · exact hterm
    · exact h.others u hu

theorem note (h : Fresh v s) {term : Term} (hterm : ¬term.Mentions v) : Fresh v (s.note term) := by
  refine ⟨h.store, h.others, ?_⟩
  intro other hother
  rcases List.mem_cons.mp hother with rfl | hother
  · exact hterm
  · exact h.computed other hother

/-- A value that is neither operand nor result of an instruction stays fresh. -/
theorem step (h : Fresh v s) {inst : Instruction} (hoperands : v ∉ inst.operands)
    (hresult : inst.result ≠ v) : Fresh v (s.step inst) := by
  have hne : ∀ w ∈ usedOperands inst.effect, w ≠ v :=
    fun w hw ↦ ne_of_mem_of_not_mem (usedOperands_subset inst hw) hoperands
  rw [step_eq]
  cases heffect : inst.effect with
  | load address =>
    rw [heffect] at hne
    exact h.assign hresult (h.others address (hne address (by simp [usedOperands])))
  | store value address =>
    rw [heffect] at hne
    have haddress : address ≠ v := hne address (by simp [usedOperands])
    exact h.assign haddress (h.others value (hne value (by simp [usedOperands])))
  | compute op lhs rhs =>
    rw [heffect] at hne
    have hterm : ¬(Term.apply op (s.store lhs) (s.store rhs)).Mentions v :=
      not_or.mpr ⟨h.others lhs (hne lhs (by simp [usedOperands])),
        h.others rhs (hne rhs (by simp [usedOperands]))⟩
    exact (h.note hterm).assign hresult hterm
  | none => exact h

/-- Code that does not mention a value leaves it fresh. -/
theorem after (h : Fresh v s) {code : List Instruction}
    (hcode : ∀ inst ∈ code, v ∉ inst.operands ∧ inst.result ≠ v) : Fresh v (s.after code) := by
  refine List.foldlRecOn code _ h ?_
  intro s hs inst hinst
  exact hs.step (hcode inst hinst).1 (hcode inst hinst).2

end Fresh

/-- A fresh value may be given anything, if it stands for that from now on. -/
theorem Mirrors.rebind {θ : ValueId → Term} {s t : Symbolic} {v : ValueId}
    (h : Mirrors θ s t) (hv : Fresh v s) (value : Term) :
    Mirrors (Function.update θ v value) s (t.assign v value) := by
  constructor
  · intro w
    rw [store_assign]
    split
    · next heq =>
      subst heq
      rw [hv.store, Term.subst, Function.update_self]
    · next hne => rw [Term.subst_update (hv.others w (Ne.symm hne)), h.store]
  · intro term hterm
    rw [Term.subst_update (hv.computed term hterm)]
    exact h.computed term hterm

end Symbolic

end BlockFlow.Numbering
