import BlockFlow.Numbering.Expression
import Mathlib.Data.List.Basic

/-!
# Expression keys tell expressions apart

Numbers are written in decimal digits, which are not blanks. The first blank of a key therefore ends
its left number and the last one begins its right number, whatever stands between them; so a key
determines its expression. Two operations have the same key exactly if they agree, or are one
commutative operation with its operands in either order where operands are put in order.
-/

namespace BlockFlow.Numbering

private theorem blank_notMem_digits (n : Nat) : ' ' ∉ Nat.toDigits 10 n := by
  intro h
  have hdigit := Nat.isDigit_of_mem_toDigits (by omega) (by omega) h
  simp at hdigit

private theorem toDigits_inj {m n : Nat} (h : Nat.toDigits 10 m = Nat.toDigits 10 n) : m = n := by
  rw [← @Nat.ofDigitChars_ten_toDigits m, h, Nat.ofDigitChars_ten_toDigits]

-- Two ways to cut a list at a separator agree if neither first part holds the separator.
private theorem cut_at_first {sep : Char} {front front' rest rest' : List Char}
    (hfront : sep ∉ front) (hfront' : sep ∉ front')
    (h : front ++ sep :: rest = front' ++ sep :: rest') : front = front' ∧ rest = rest' := by
  induction front generalizing front' with
  | nil =>
    cases front' with
    | nil => exact ⟨rfl, (List.cons.inj h).2⟩
    | cons c front' => exact absurd (List.cons.inj h).1 (List.ne_of_not_mem_cons hfront')
  | cons c front ih =>
    cases front' with
    | nil => exact absurd (List.cons.inj h).1.symm (List.ne_of_not_mem_cons hfront)
    | cons c' front' =>
      obtain ⟨hc, hrest⟩ := List.cons.inj h
      obtain ⟨hfronts, hrests⟩ := ih (List.not_mem_of_not_mem_cons hfront)
        (List.not_mem_of_not_mem_cons hfront') hrest
      exact ⟨by rw [hc, hfronts], hrests⟩

private theorem toList_key (e : Expression) :
    e.key.toList =
      Nat.toDigits 10 e.lhs ++ ' ' :: (e.op.toList ++ ' ' :: Nat.toDigits 10 e.rhs) := by
  simp [Expression.key, toString]

namespace Expression

/-- A key determines its expression. -/
theorem key_eq_iff (e e' : Expression) : e.key = e'.key ↔ e = e' := by
  constructor
  · intro h
    have hlists := congrArg String.toList h
    rw [toList_key, toList_key] at hlists
    obtain ⟨hlhs, hrest⟩ :=
      cut_at_first (blank_notMem_digits _) (blank_notMem_digits _) hlists
    -- read from the end, the right number comes first and holds no blank either
    have hmirror := congrArg List.reverse hrest
    simp only [List.reverse_append, List.reverse_cons, List.append_assoc, List.singleton_append]
      at hmirror
    obtain ⟨hrhs, hop⟩ := cut_at_first (by simpa using blank_notMem_digits e.rhs)
      (by simpa using blank_notMem_digits e'.rhs) hmirror
    obtain ⟨lhs, op, rhs⟩ := e
    obtain ⟨lhs', op', rhs'⟩ := e'
    rw [mk.injEq]
    exact ⟨toDigits_inj hlhs, String.toList_inj.mp (List.reverse_inj.mp hop),
      toDigits_inj (List.reverse_inj.mp hrhs)⟩
  · rintro rfl
    rfl

/-- Operators have different mnemonics. -/
theorem mnemonic_inj {op op' : Opcode} (h : op.isBinary = true) (h' : op'.isBinary = true)
    (heq : op.mnemonic = op'.mnemonic) : op = op' := by
  cases op <;> cases op' <;> simp_all [Opcode.isBinary, Opcode.mnemonic]

/-- Operations have the same key exactly if they agree up to the order that is imposed on
commutative operands. -/
theorem key_ofOperation_eq_iff {op op' : Opcode} (h : op.isBinary = true)
    (h' : op'.isBinary = true) (l r l' r' : Number) (ordered : Bool) :
    (ofOperation op l r ordered).key = (ofOperation op' l' r' ordered).key ↔
      op = op' ∧ (l = l' ∧ r = r' ∨
        (ordered = true ∧ op.isCommutative = true) ∧ l = r' ∧ r = l') := by
  rw [key_eq_iff]
  have hmnemonic : op.mnemonic = op'.mnemonic ↔ op = op' :=
    ⟨mnemonic_inj h h', fun heq ↦ by rw [heq]⟩
  by_cases hop : op = op'
  · subst hop
    by_cases hswap : ordered = true ∧ op.isCommutative = true
    · simp only [ofOperation, hswap, Bool.and_self, Bool.true_and, decide_eq_true_eq, true_and]
      split <;> split <;> simp only [mk.injEq, true_and] <;> grind
    · have hstay (a b : Number) : ofOperation op a b ordered = ⟨a, op.mnemonic, b⟩ := by
        rw [ofOperation, if_neg]
        simp only [Bool.and_eq_true, not_and_of_not_left _ hswap, not_false_eq_true]
      simp [hstay, hswap]
  · have hne : (ofOperation op l r ordered).op ≠ (ofOperation op' l' r' ordered).op := by
      simp only [ofOperation]
      split <;> split <;> exact fun heq ↦ hop (hmnemonic.mp heq)
    simp only [hop, false_and, iff_false]
    exact fun heq ↦ hne (congrArg Expression.op heq)

/-- Keys never collide. Expressions over any numbers and any operator text, one with blanks or
digits in it or an empty one too, have the same key exactly if they agree in both numbers and in the
text. So two operations have the same key exactly if the operator is the same and the operands are,
in order, or crosswise where operands are put in order and the operator is a sum or a product. -/
theorem keys_tell_apart :
    (∀ e e' : Expression, e.key = e'.key ↔ e.lhs = e'.lhs ∧ e.op = e'.op ∧ e.rhs = e'.rhs) ∧
    ∀ (op op' : Opcode) (l r l' r' : Number) (ordered : Bool),
      op.isBinary = true → op'.isBinary = true →
      ((ofOperation op l r ordered).key = (ofOperation op' l' r' ordered).key ↔
        op = op' ∧ ((l, r) = (l', r') ∨
          ordered = true ∧ (op = .add ∨ op = .mul) ∧ (l, r) = (r', l'))) := by
  constructor
  · intro e e'
    obtain ⟨lhs, op, rhs⟩ := e
    obtain ⟨lhs', op', rhs'⟩ := e'
    rw [key_eq_iff, mk.injEq]
  · intro op op' l r l' r' ordered hop hop'
    rw [key_ofOperation_eq_iff hop hop', Opcode.isCommutative_iff, Prod.mk.injEq, Prod.mk.injEq,
      and_assoc]

/-- Operands are put in order as numbers, not as texts, and only those that may change places; an
operator text that looks like the number beside it is told from that number. -/
theorem crossed_keys :
    (ofOperation .add 10 9 true).key = (ofOperation .add 9 10 true).key ∧
    (ofOperation .add 10 9 true).key = "9 add 10" ∧
    (ofOperation .sub 10 9 true).key ≠ (ofOperation .sub 9 10 true).key ∧
    (ofOperation .add 10 9 false).key ≠ (ofOperation .add 9 10 false).key ∧
    (mk 1 "2 3" 4).key ≠ (mk 1 "2" 4).key ∧ (mk 1 "" 4).key ≠ (mk 1 " " 4).key := by
  obtain ⟨hexpressions, hoperations⟩ := keys_tell_apart
  refine ⟨?_, by decide, ?_, ?_, ?_, ?_⟩
  · exact (hoperations .add .add 10 9 9 10 true rfl rfl).mpr ⟨rfl, .inr ⟨rfl, .inl rfl, rfl⟩⟩
  · rw [ne_eq, hoperations .sub .sub 10 9 9 10 true rfl rfl]
    decide
  · rw [ne_eq, hoperations .add .add 10 9 9 10 false rfl rfl]
    decide
  · rw [ne_eq, hexpressions]
    decide
  · rw [ne_eq, hexpressions]
    decide

end Expression

end BlockFlow.Numbering
