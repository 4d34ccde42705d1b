import BlockFlow.Numbering.Table
import BlockFlow.Proofs.Numbering.Expression
import BlockFlow.Proofs.Numbering.Term
import Mathlib.Logic.Function.Basic

/-!
# What numbers mean

A valuation gives every issued number a term: a number issued to a value means that value as it was
at first, and a number issued to an expression means the operator applied to what the two numbers of
the expression mean. Different numbers mean different terms, so an expression has a number exactly
if some number means what it means. Issuing one more number keeps all this, provided that no number
means the new term yet.
-/

namespace BlockFlow.Numbering

/-- The number has been issued. -/
def Table.Issued (t : Table) (k : Number) : Prop := 0 < k ∧ k < t.next

/-- The term is an operator applied to issued numbers, and the text is the key of that. -/
def IsOperation (ordered : Bool) (t : Table) (meaning : Number → Term) (term : Term)
    (text : String) : Prop :=
  ∃ op l r, op.isBinary = true ∧ t.Issued l ∧ t.Issued r ∧
    text = (Expression.ofOperation op l r ordered).key ∧ term = .apply op (meaning l) (meaning r)

/-- A meaning for the numbers of a table. -/
structure Valuation (ordered : Bool) (t : Table) (meaning : Number → Term) : Prop where
  next_pos : 0 < t.next
  origin : ∀ k, t.Issued k →
    (∃ v, meaning k = .var v ∧ (t.lookupValue v).isSome = true) ∨
      ∃ text, IsOperation ordered t meaning (meaning k) text ∧ t.lookupExpression text = some k
  injective : ∀ i j, t.Issued i → t.Issued j → (meaning i).Same ordered (meaning j) → i = j
  expression : ∀ text k, t.lookupExpression text = some k →
    t.Issued k ∧ IsOperation ordered t meaning (meaning k) text

/-- The empty table has issued no number. -/
theorem Valuation.empty (ordered : Bool) (meaning : Number → Term) :
    Valuation ordered .empty meaning := by
  have hnone (k : Number) : ¬Table.empty.Issued k := by
    rintro ⟨hpos, hlt⟩
    change k < 1 at hlt
    exact Nat.not_lt.mpr hpos hlt
  refine ⟨Nat.zero_lt_one, fun k hk ↦ absurd hk (hnone k), fun i _ hi ↦ absurd hi (hnone i), ?_⟩
  intro text k h
  simp [Table.lookupExpression, Table.empty] at h

variable {ordered : Bool} {t t' : Table} {meaning : Number → Term}

namespace Valuation

/-- An expression over issued numbers has a number exactly if that number means what it means. -/
theorem lookupExpression_eq_some_iff (h : Valuation ordered t meaning) {op : Opcode}
    (hop : op.isBinary = true) {l r : Number} (hl : t.Issued l) (hr : t.Issued r) (k : Number) :
    t.lookupExpression (Expression.ofOperation op l r ordered).key = some k ↔
      t.Issued k ∧ (meaning k).Same ordered (.apply op (meaning l) (meaning r)) := by
  constructor
  · intro hk
    obtain ⟨hissued, op', l', r', hop', -, -, hkey, hmeaning⟩ := h.expression _ k hk
    refine ⟨hissued, ?_⟩
    rw [hmeaning]
    obtain ⟨rfl, ⟨rfl, rfl⟩ | ⟨hswap, rfl, rfl⟩⟩ :=
      (Expression.key_ofOperation_eq_iff hop hop' l r l' r' ordered).mp hkey
    · exact Term.Same.refl _
    · exact Term.same_apply_iff.mpr ⟨rfl, .inr ⟨hswap, .refl _, .refl _⟩⟩
  · rintro ⟨hissued, hsame⟩
    rcases h.origin k hissued with ⟨v, hvar, -⟩ | ⟨text, hoperation, hk⟩
    · rw [hvar] at hsame
      exact absurd hsame Term.not_same_var_apply
    · obtain ⟨op', l', r', hop', hl', hr', rfl, hmeaning⟩ := hoperation
      rw [hmeaning, Term.same_apply_iff] at hsame
      have hkey : (Expression.ofOperation op' l' r' ordered).key =
          (Expression.ofOperation op l r ordered).key := by
        rw [Expression.key_ofOperation_eq_iff hop' hop]
        obtain ⟨rfl, ⟨hll, hrr⟩ | ⟨hswap, hlr, hrl⟩⟩ := hsame
        · exact ⟨rfl, .inl ⟨h.injective _ _ hl' hl hll, h.injective _ _ hr' hr hrr⟩⟩
        · exact ⟨rfl, .inr ⟨hswap, h.injective _ _ hl' hr hlr, h.injective _ _ hr' hl hrl⟩⟩
      rw [← hkey]
      exact hk

/-! ### Issuing one more number -/

private theorem update_of_issued {k : Number} (hk : t.Issued k) (term : Term) :
    Function.update meaning t.next term k = meaning k :=
  Function.update_of_ne (Nat.ne_of_lt hk.2) term meaning

private theorem isOperation_update {term fresh : Term} {text : String} (hnext : t.next ≤ t'.next)
    (h : IsOperation ordered t meaning term text) :
    IsOperation ordered t' (Function.update meaning t.next fresh) term text := by
  obtain ⟨op, l, r, hop, hl, hr, htext, hterm⟩ := h
  refine ⟨op, l, r, hop, ⟨hl.1, Nat.lt_of_lt_of_le hl.2 hnext⟩,
    ⟨hr.1, Nat.lt_of_lt_of_le hr.2 hnext⟩, htext, ?_⟩
  rw [update_of_issued hl, update_of_issued hr]
  exact hterm

/-- A table that has issued one more number, for a term that no number means, has a valuation. -/
theorem extend (h : Valuation ordered t meaning) (fresh : Term) (hnext : t'.next = t.next + 1)
    (hfresh : ∀ k, t.Issued k → ¬(meaning k).Same ordered fresh)
    (hvalues : ∀ v, (t.lookupValue v).isSome = true → (t'.lookupValue v).isSome = true)
    (hkept : ∀ text k, t.lookupExpression text = some k → t'.lookupExpression text = some k)
    (horigin : (∃ v, fresh = .var v ∧ (t'.lookupValue v).isSome = true) ∨
      ∃ text, IsOperation ordered t meaning fresh text ∧
        t'.lookupExpression text = some t.next)
    (hadded : ∀ text k, t'.lookupExpression text = some k → t.lookupExpression text = some k ∨
      k = t.next ∧ IsOperation ordered t meaning fresh text) :
    Valuation ordered t' (Function.update meaning t.next fresh) := by
  have hle : t.next ≤ t'.next := hnext ▸ Nat.le_succ _
  have hself : Function.update meaning t.next fresh t.next = fresh := Function.update_self ..
  have hcases (k : Number) (hk : t'.Issued k) : t.Issued k ∨ k = t.next := by
    obtain ⟨hpos, hlt⟩ := hk
    rw [hnext] at hlt
    exact (Nat.lt_succ_iff_lt_or_eq.mp hlt).imp_left fun hlt ↦ ⟨hpos, hlt⟩
  refine ⟨Nat.lt_of_lt_of_le h.next_pos hle, ?_, ?_, ?_⟩
  · intro k hk
    rcases hcases k hk with hk | rfl
    · rw [update_of_issued hk]
      rcases h.origin k hk with ⟨v, hvar, hseen⟩ | ⟨text, hoperation, hlookup⟩
      · exact .inl ⟨v, hvar, hvalues v hseen⟩
      · exact .inr ⟨text, isOperation_update hle hoperation, hkept text k hlookup⟩
    · rw [hself]
      exact horigin.imp_right fun ⟨text, hoperation, hlookup⟩ ↦
        ⟨text, isOperation_update hle hoperation, hlookup⟩
  · intro i j hi hj hsame
    rcases hcases i hi with hi | rfl
    · rcases hcases j hj with hj | rfl
      · rw [update_of_issued hi, update_of_issued hj] at hsame
        exact h.injective i j hi hj hsame
      · rw [update_of_issued hi, hself] at hsame
        exact absurd hsame (hfresh i hi)
    · rcases hcases j hj with hj | rfl
      · rw [update_of_issued hj, hself] at hsame
        exact absurd hsame.symm (hfresh j hj)
      · rfl
  · intro text k hk
    rcases hadded text k hk with hold | ⟨rfl, hoperation⟩
    · obtain ⟨hissued, hoperation⟩ := h.expression text k hold
      rw [update_of_issued hissued]
      exact ⟨⟨hissued.1, Nat.lt_of_lt_of_le hissued.2 hle⟩, isOperation_update hle hoperation⟩
    · rw [hself]
      exact ⟨⟨h.next_pos, hnext ▸ Nat.lt_succ_self _⟩, isOperation_update hle hoperation⟩

end Valuation

/-! ### Numbers that are known to mean a term -/

/-- The number is issued and means the term, up to sameness. -/
def Means (ordered : Bool) (t : Table) (meaning : Number → Term) (k : Number)
    (term : Term) : Prop :=
  t.Issued k ∧ (meaning k).Same ordered term

/-- One more number takes no meaning away. -/
theorem Means.extend {k : Number} {term : Term} (h : Means ordered t meaning k term)
    (fresh : Term) (hnext : t'.next = t.next + 1) :
    Means ordered t' (Function.update meaning t.next fresh) k term := by
  obtain ⟨hissued, hsame⟩ := h
  refine ⟨⟨hissued.1, hnext ▸ Nat.lt_succ_of_lt hissued.2⟩, ?_⟩
  rw [Function.update_of_ne (Nat.ne_of_lt hissued.2)]
  exact hsame

/-- A number that means a term means every term that is the same. -/
theorem Means.trans {k : Number} {term term' : Term} (h : Means ordered t meaning k term)
    (hsame : term.Same ordered term') : Means ordered t meaning k term' :=
  ⟨h.1, h.2.trans hsame⟩

/-- The number issued last means the term it was issued for. -/
theorem Means.fresh (hpos : 0 < t.next) (fresh : Term) (hnext : t'.next = t.next + 1) :
    Means ordered t' (Function.update meaning t.next fresh) t.next fresh := by
  refine ⟨⟨hpos, hnext ▸ Nat.lt_succ_self _⟩, ?_⟩
  rw [Function.update_self]
  exact Term.Same.refl fresh

end BlockFlow.Numbering
