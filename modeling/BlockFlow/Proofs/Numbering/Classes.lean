import BlockFlow.Numbering
import BlockFlow.Proofs.Numbering.Symbolic
import BlockFlow.Proofs.Numbering.Valuation

/-!
# Numbers as classes of equal terms

The table of a scan tracks a symbolic scan of the same instructions: numbered values have numbers
that mean their terms, values without a number still stand for themselves, and the numbered
expressions mean the computed terms. Every request to the table keeps this, hence so does every
instruction and every scan. Since different numbers mean different terms, numbers are equal exactly
where terms are the same, and an expression is found in the table exactly if its term has been
computed before.
-/

namespace BlockFlow.Numbering

/-! ### Requests to a table -/

namespace Table

variable (t : Table)

theorem numberValue_of_some {v : ValueId} {k : Number} (h : t.lookupValue v = some k) :
    t.numberValue v = (t, { number := k, existed := true }) := by
  unfold lookupValue at h
  rw [numberValue, h]

theorem numberValue_of_none {v : ValueId} (h : t.lookupValue v = none) :
    t.numberValue v = ({ t with next := t.next + 1, values := t.values.insert v t.next },
      { number := t.next, existed := false }) := by
  unfold lookupValue at h
  rw [numberValue, h]

theorem numberExpression_of_some {text : String} {k : Number}
    (h : t.lookupExpression text = some k) :
    t.numberExpression text = (t, { number := k, existed := true }) := by
  unfold lookupExpression at h
  rw [numberExpression, h]

theorem numberExpression_of_none {text : String} (h : t.lookupExpression text = none) :
    t.numberExpression text =
      ({ t with next := t.next + 1, expressions := t.expressions.insert text t.next },
        { number := t.next, existed := false }) := by
  unfold lookupExpression at h
  rw [numberExpression, h]

end Table

/-! ### Tracking a symbolic scan -/

/-- The table knows of every value and every computed term what the symbolic scan knows. -/
structure Tracks (ordered : Bool) (t : Table) (s : Symbolic) (meaning : Number → Term) : Prop
    extends Valuation ordered t meaning where
  value : ∀ v k, t.lookupValue v = some k → Means ordered t meaning k (s.store v)
  unseen : ∀ v, t.lookupValue v = none → s.store v = .var v
  computed : ∀ text k, t.lookupExpression text = some k →
    ∃ term ∈ s.computed, (meaning k).Same ordered term
  recorded : ∀ term ∈ s.computed, ∃ text k, t.lookupExpression text = some k ∧
    Means ordered t meaning k term

/-- The empty table tracks the start of a symbolic scan. -/
theorem Tracks.empty (ordered : Bool) (meaning : Number → Term) :
    Tracks ordered .empty .start meaning := by
  refine ⟨Valuation.empty ordered meaning, ?_, fun v _ ↦ rfl, ?_, ?_⟩
  · intro v k h
    simp [Table.lookupValue, Table.empty] at h
  · intro text k h
    simp [Table.lookupExpression, Table.empty] at h
  · intro term h
    simp [Symbolic.start] at h

namespace Tracks

variable {ordered : Bool} {t : Table} {s : Symbolic} {meaning : Number → Term}

/-- After a request for a value its number means its term, and nothing known is lost. -/
theorem numberValue (h : Tracks ordered t s meaning) (v : ValueId) :
    ∃ meaning', Tracks ordered (t.numberValue v).1 s meaning' ∧
      Means ordered (t.numberValue v).1 meaning' (t.numberValue v).2.number (s.store v) ∧
      ∀ k term, Means ordered t meaning k term →
        Means ordered (t.numberValue v).1 meaning' k term := by
  cases hv : t.lookupValue v with
  | some k =>
    rw [t.numberValue_of_some hv]
    exact ⟨meaning, h, h.value v k hv, fun _ _ hm ↦ hm⟩
  | none =>
    have hlookup := t.lookupValue_numberValue v
    rw [t.numberValue_of_none hv] at hlookup ⊢
    -- no number means `v` itself: such a number would have been issued to `v`
    have hfresh : ∀ k, t.Issued k → ¬(meaning k).Same ordered (.var v) := by
      intro k hk hsame
      rcases h.origin k hk with ⟨w, hvar, hseen⟩ | ⟨text, ⟨op, l, r, -, -, -, -, happly⟩, -⟩
      · rw [hvar, Term.same_var_iff] at hsame
        rw [hsame, hv] at hseen
        cases hseen
      · rw [happly] at hsame
        exact Term.not_same_var_apply hsame.symm
    refine ⟨Function.update meaning t.next (.var v), ⟨?_, ?_, ?_, ?_, ?_⟩, ?_, ?_⟩
    · apply h.toValuation.extend (.var v) rfl hfresh
      · intro w hw
        rw [hlookup]
        split
        · rfl
        · exact hw
      · exact fun _ _ hk ↦ hk
      · exact .inl ⟨v, rfl, by simp [hlookup]⟩
      · exact fun _ _ hk ↦ .inl hk
    · intro w k hw
      rw [hlookup] at hw
      split at hw
      · next heq =>
        subst heq
        cases hw
        rw [h.unseen v hv]
        exact Means.fresh h.next_pos _ rfl
      · exact (h.value w k hw).extend _ rfl
    · intro w hw
      rw [hlookup] at hw
      split at hw
      · cases hw
      · exact h.unseen w hw
    · intro text k hk
      rw [Function.update_of_ne (Nat.ne_of_lt (h.expression text k hk).1.2)]
      exact h.computed text k hk
    · intro term hterm
      obtain ⟨text, k, hk, hm⟩ := h.recorded term hterm
      exact ⟨text, k, hk, hm.extend _ rfl⟩
    · rw [h.unseen v hv]
      exact Means.fresh h.next_pos _ rfl
    · exact fun k term hm ↦ hm.extend _ rfl

/-- A value that is given a number takes over the term that the number means. -/
theorem aliasValue (h : Tracks ordered t s meaning) (v : ValueId) {k : Number} {term : Term}
    (hk : Means ordered t meaning k term) :
    Tracks ordered (t.aliasValue v k).1 (s.assign v term) meaning := by
  have hlookup := t.lookupValue_aliasValue v
  have hseen (w : ValueId) (hw : (t.lookupValue w).isSome = true) :
      ((t.aliasValue v k).1.lookupValue w).isSome = true := by
    rw [hlookup]
    split
    · rfl
    · exact hw
  refine ⟨⟨h.next_pos, ?_, h.injective, h.expression⟩, ?_, ?_, h.computed, h.recorded⟩
  · intro i hi
    exact (h.origin i hi).imp_left fun ⟨w, hvar, hw⟩ ↦ ⟨w, hvar, hseen w hw⟩
  · intro w i hw
    rw [hlookup] at hw
    rw [Symbolic.store_assign]
    split at hw
    · next heq =>
      cases hw
      rw [if_pos heq]
      exact hk
    · next hne =>
      rw [if_neg hne]
      exact h.value w i hw
  · intro w hw
    rw [hlookup] at hw
    rw [Symbolic.store_assign]
    split at hw
    · cases hw
    · next hne =>
      rw [if_neg hne]
      exact h.unseen w hw

/-- A term that a numbered expression means may be noted again. -/
theorem note (h : Tracks ordered t s meaning) {text : String} {k : Number} {term : Term}
    (hkey : t.lookupExpression text = some k) (hk : Means ordered t meaning k term) :
    Tracks ordered t (s.note term) meaning := by
  refine ⟨h.toValuation, h.value, h.unseen, ?_, ?_⟩
  · intro text i hi
    obtain ⟨other, hother, hi⟩ := h.computed text i hi
    exact ⟨other, List.mem_cons_of_mem _ hother, hi⟩
  · intro other hother
    rcases List.mem_cons.mp hother with rfl | hother
    · exact ⟨text, k, hkey, hk⟩
    · exact h.recorded other hother

/-- An expression that no number means may be given the next number. -/
theorem issue (h : Tracks ordered t s meaning) {text : String} {fresh term : Term}
    (hkey : t.lookupExpression text = none)
    (hfresh : ∀ k, t.Issued k → ¬(meaning k).Same ordered fresh)
    (hoperation : IsOperation ordered t meaning fresh text) (hsame : fresh.Same ordered term) :
    Tracks ordered (t.numberExpression text).1 (s.note term)
      (Function.update meaning t.next fresh) := by
  have hlookup := t.lookupExpression_numberExpression text
  rw [t.numberExpression_of_none hkey] at hlookup ⊢
  have hkept : ∀ other k, t.lookupExpression other = some k → text ≠ other := by
    rintro other k hk rfl
    rw [hkey] at hk
    cases hk
  refine ⟨?_, fun v k hv ↦ (h.value v k hv).extend _ rfl, h.unseen, ?_, ?_⟩
  · apply h.toValuation.extend fresh rfl hfresh
    · exact fun _ hv ↦ hv
    · intro other k hk
      rw [hlookup, if_neg (hkept other k hk)]
      exact hk
    · exact .inr ⟨text, hoperation, by rw [hlookup, if_pos rfl]⟩
    · intro other k hk
      rw [hlookup] at hk
      split at hk
      · next heq =>
        subst heq
        cases hk
        exact .inr ⟨rfl, hoperation⟩
      · exact .inl hk
  · intro other k hk
    rw [hlookup] at hk
    split at hk
    · cases hk
      rw [Function.update_self]
      exact ⟨term, List.mem_cons_self, hsame⟩
    · obtain ⟨noted, hnoted, hk'⟩ := h.computed other k hk
      rw [Function.update_of_ne (Nat.ne_of_lt (h.expression other k hk).1.2)]
      exact ⟨noted, List.mem_cons_of_mem _ hnoted, hk'⟩
  · intro noted hnoted
    rcases List.mem_cons.mp hnoted with rfl | hnoted
    · refine ⟨text, t.next, ?_, (Means.fresh h.next_pos fresh rfl).trans hsame⟩
      rw [hlookup, if_pos rfl]
    · obtain ⟨other, k, hk, hm⟩ := h.recorded noted hnoted
      refine ⟨other, k, ?_, hm.extend _ rfl⟩
      rw [hlookup, if_neg (hkept other k hk)]
      exact hk

/-- After a request for an expression over known numbers its number means its term, which is noted
as computed; the request finds a number exactly if the term was computed before. -/
theorem numberExpression (h : Tracks ordered t s meaning) {op : Opcode}
    (hop : op.isBinary = true) {l r : Number} {lhs rhs : Term}
    (hl : Means ordered t meaning l lhs) (hr : Means ordered t meaning r rhs) :
    let request := t.numberExpression (Expression.ofOperation op l r ordered).key
    ∃ meaning', Tracks ordered request.1 (s.note (.apply op lhs rhs)) meaning' ∧
      Means ordered request.1 meaning' request.2.number (.apply op lhs rhs) ∧
      (request.2.existed = true ↔ ∃ term ∈ s.computed, term.Same ordered (.apply op lhs rhs)) := by
  intro request
  have hsame : (Term.apply op (meaning l) (meaning r)).Same ordered (.apply op lhs rhs) :=
    .apply op hl.2 hr.2
  have hiff := h.lookupExpression_eq_some_iff hop hl.1 hr.1
  cases hkey : t.lookupExpression (Expression.ofOperation op l r ordered).key with
  | some k =>
    have hrequest : request = (t, { number := k, existed := true }) :=
      t.numberExpression_of_some hkey
    obtain ⟨hissued, hk⟩ := (hiff k).mp hkey
    have hm : Means ordered t meaning k (.apply op lhs rhs) := ⟨hissued, hk.trans hsame⟩
    obtain ⟨term, hterm, hk⟩ := h.computed _ k hkey
    rw [hrequest]
    exact ⟨meaning, h.note hkey hm, hm, fun _ ↦ ⟨term, hterm, hk.symm.trans hm.2⟩, fun _ ↦ rfl⟩
  | none =>
    have habsent (k : Number) (hk : t.Issued k) :
        ¬(meaning k).Same ordered (.apply op (meaning l) (meaning r)) := by
      intro hmeans
      have hfound := (hiff k).mpr ⟨hk, hmeans⟩
      rw [hkey] at hfound
      cases hfound
    have htracks := h.issue hkey habsent ⟨op, l, r, hop, hl.1, hr.1, rfl, rfl⟩ hsame
    have hrequest : request = _ := t.numberExpression_of_none hkey
    refine ⟨_, htracks, ?_, ?_⟩
    · rw [hrequest]
      exact (Means.fresh h.next_pos _ rfl).trans hsame
    · rw [hrequest]
      refine ⟨fun hexisted ↦ absurd hexisted Bool.false_ne_true, ?_⟩
      rintro ⟨term, hterm, hcomputed⟩
      obtain ⟨text, k, -, hissued, hk⟩ := h.recorded term hterm
      exact absurd (hk.trans (hcomputed.trans hsame.symm)) (habsent k hissued)

end Tracks

end BlockFlow.Numbering
