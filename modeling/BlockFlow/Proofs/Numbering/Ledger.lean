import BlockFlow.Proofs.Numbering.Classes

/-!
# Numbers are issued once

A table answers requests for the number of a value or of an expression, renumbers a value by an
alias, and can be emptied. A ledger keeps a table together with the requests that it has answered
since it was last emptied. A request that is answered for the first time receives the number of the
counter, which is larger than every number answered before; all else repeats a number that was
answered before. So the counter counts the first answers, expressions are told apart by their
numbers, and a value has the number that it was last given.
-/

namespace BlockFlow.Numbering

/-- A request that a table answers with a number. -/
inductive Request where
  | value (v : ValueId)
  | expression (text : String)
  | renumber (v : ValueId) (number : Number)
  deriving DecidableEq

/-- Whether a request gives a value its number. -/
def Request.concerns (v : ValueId) : Request → Bool
  | .value w | .renumber w _ => w = v
  | .expression _ => false

/-- What a table makes of a request. -/
def Table.answer (t : Table) : Request → Table × Lookup
  | .value v => t.numberValue v
  | .expression text => t.numberExpression text
  | .renumber v number => t.aliasValue v number

/-- A request with its answer. -/
structure Entry where
  request : Request
  answer : Lookup
  deriving DecidableEq

/-- Whether the request was answered with a number that was issued for it. -/
def Entry.isFresh : Entry → Bool
  | ⟨.renumber _ _, _⟩ => false
  | ⟨_, answer⟩ => !answer.existed

/-- A call to a table: a request, or to be emptied. -/
inductive Call where
  | request (r : Request)
  | reset

/-- A table with what it has answered since it was last emptied, the oldest answer first. -/
structure Ledger where
  table : Table := .empty
  log : List Entry := []

namespace Ledger

/-- Carries out a call. -/
def step (l : Ledger) : Call → Ledger
  | .request r => { table := (l.table.answer r).1, log := l.log ++ [⟨r, (l.table.answer r).2⟩] }
  | .reset => {}

/-- Carries out calls in order. -/
def run (l : Ledger) (calls : List Call) : Ledger := calls.foldl step l

/-- An alias may repeat a number that was answered since the table was last emptied; every other
call may be made at any time. -/
def Permits (l : Ledger) : Call → Prop
  | .request (.renumber _ number) => ∃ e ∈ l.log, e.answer.number = number
  | _ => True

/-- Each of the calls may be made when its turn comes. -/
def PermitsAll (l : Ledger) : List Call → Prop
  | [] => True
  | call :: calls => l.Permits call ∧ (l.step call).PermitsAll calls

instance (l : Ledger) (call : Call) : Decidable (l.Permits call) :=
  match call with
  | .request (.renumber _ number) =>
    inferInstanceAs (Decidable (∃ e ∈ l.log, e.answer.number = number))
  | .request (.value _) | .request (.expression _) | .reset => isTrue trivial

instance decidablePermitsAll (l : Ledger) : (calls : List Call) → Decidable (l.PermitsAll calls)
  | [] => isTrue trivial
  | call :: calls =>
    have := decidablePermitsAll (l.step call) calls
    inferInstanceAs (Decidable (l.Permits call ∧ (l.step call).PermitsAll calls))

end Ledger

/-! ### What a request does to a table -/

namespace Table

variable (t : Table) (r : Request)

/-- A request that concerns a value gives it the answered number; all else leaves it alone. -/
theorem lookupValue_answer (v : ValueId) :
    (t.answer r).1.lookupValue v =
      if r.concerns v then some (t.answer r).2.number else t.lookupValue v := by
  cases r with
  | value w => simpa [answer, Request.concerns] using t.lookupValue_numberValue w v
  | expression text =>
    cases h : t.lookupExpression text with
    | some k => simp [answer, Request.concerns, t.numberExpression_of_some h]
    | none => simp [answer, Request.concerns, t.numberExpression_of_none h, lookupValue]
  | renumber w number =>
    have hnumber : (t.aliasValue w number).2.number = number := rfl
    simpa [answer, Request.concerns, hnumber] using t.lookupValue_aliasValue w v number

/-- The counter counts first answers. -/
theorem next_answer :
    (t.answer r).1.next = t.next + if Entry.isFresh ⟨r, (t.answer r).2⟩ then 1 else 0 := by
  cases r with
  | value v =>
    cases h : t.lookupValue v with
    | some k => simp [answer, Entry.isFresh, t.numberValue_of_some h]
    | none => simp [answer, Entry.isFresh, t.numberValue_of_none h]
  | expression text =>
    cases h : t.lookupExpression text with
    | some k => simp [answer, Entry.isFresh, t.numberExpression_of_some h]
    | none => simp [answer, Entry.isFresh, t.numberExpression_of_none h]
  | renumber v number => rfl

/-- Where an answer comes from: the counter, what the table holds, or the request itself. -/
inductive Origin : Request → Lookup → Prop
  | newValue (v : ValueId) (h : t.lookupValue v = none) : Origin (.value v) ⟨t.next, false⟩
  | knownValue (v : ValueId) (k : Number) (h : t.lookupValue v = some k) :
    Origin (.value v) ⟨k, true⟩
  | newExpression (text : String) (h : t.lookupExpression text = none) :
    Origin (.expression text) ⟨t.next, false⟩
  | knownExpression (text : String) (k : Number) (h : t.lookupExpression text = some k) :
    Origin (.expression text) ⟨k, true⟩
  | renumber (v : ValueId) (k : Number) (existed : Bool) : Origin (.renumber v k) ⟨k, existed⟩

/-- Every answer has one of these origins. -/
theorem origin_answer : t.Origin r (t.answer r).2 := by
  cases r with
  | value v =>
    cases h : t.lookupValue v with
    | some k =>
      rw [answer, t.numberValue_of_some h]
      exact .knownValue v k h
    | none =>
      rw [answer, t.numberValue_of_none h]
      exact .newValue v h
  | expression text =>
    cases h : t.lookupExpression text with
    | some k =>
      rw [answer, t.numberExpression_of_some h]
      exact .knownExpression text k h
    | none =>
      rw [answer, t.numberExpression_of_none h]
      exact .newExpression text h
  | renumber v number => exact .renumber v number _

/-- A first answer is the number of the counter. -/
theorem number_of_fresh {t : Table} {r : Request} (h : Entry.isFresh ⟨r, (t.answer r).2⟩ = true) :
    (t.answer r).2.number = t.next := by
  have horigin := t.origin_answer r
  generalize (t.answer r).2 = answer at h horigin
  cases horigin with
  | newValue v _ => rfl
  | newExpression text _ => rfl
  | knownValue v k _ => simp [Entry.isFresh] at h
  | knownExpression text k _ => simp [Entry.isFresh] at h
  | renumber v k existed => simp [Entry.isFresh] at h

/-- A request for a value leaves the expressions alone. -/
theorem lookupExpression_numberValue (v : ValueId) (text : String) :
    (t.numberValue v).1.lookupExpression text = t.lookupExpression text := by
  unfold numberValue
  split <;> rfl

/-- An expression that is asked for has the answered number. -/
theorem lookupExpression_answer_self (text : String) :
    (t.answer (.expression text)).1.lookupExpression text =
      some (t.answer (.expression text)).2.number := by
  simpa [answer] using t.lookupExpression_numberExpression text text

/-- No request changes the number of an expression. -/
theorem lookupExpression_answer_of_some {t : Table} {text : String} {k : Number}
    (h : t.lookupExpression text = some k) (r : Request) :
    (t.answer r).1.lookupExpression text = some k := by
  cases r with
  | value v => rw [answer, t.lookupExpression_numberValue, h]
  | expression text' =>
    have hlookup := t.lookupExpression_numberExpression text' text
    by_cases htext : text' = text
    · subst htext
      rw [answer, t.numberExpression_of_some h]
      exact h
    · rw [answer, hlookup, if_neg htext, h]
  | renumber v number => exact h

/-- An expression that has a number after a request had it before, or was asked for and has
received the number of the counter. -/
theorem lookupExpression_of_answer {t : Table} {r : Request} {text : String} {k : Number}
    (h : (t.answer r).1.lookupExpression text = some k) :
    t.lookupExpression text = some k ∨
      r = .expression text ∧ k = t.next ∧ (t.answer r).2.number = t.next := by
  cases r with
  | value v =>
    rw [answer, t.lookupExpression_numberValue] at h
    exact .inl h
  | expression text' =>
    rw [answer, t.lookupExpression_numberExpression] at h
    split at h
    · next htext =>
      subst htext
      cases hk : t.lookupExpression text' with
      | some j =>
        rw [t.numberExpression_of_some hk] at h
        exact .inl h
      | none =>
        rw [t.numberExpression_of_none hk] at h
        exact .inr ⟨rfl, (Option.some.inj h).symm, by rw [answer, t.numberExpression_of_none hk]⟩
    · exact .inl h
  | renumber v number => exact .inl h

/-- The keys of expressions have numbers that the counter has passed, and no two keys have the
same. -/
structure KeysApart (t : Table) : Prop where
  below : ∀ key k, t.lookupExpression key = some k → k < t.next
  injective : ∀ key key' k, t.lookupExpression key = some k → t.lookupExpression key' = some k →
    key = key'

/-- An empty table has no keys. -/
theorem keysApart_empty : KeysApart .empty := by
  constructor <;> simp [lookupExpression, empty]

/-- Every request keeps keys apart, a renumbering whatever number it gives. -/
theorem keysApart_answer (t : Table) (r : Request) (h : t.KeysApart) :
    (t.answer r).1.KeysApart := by
  constructor
  · intro key k hk
    rcases lookupExpression_of_answer hk with hold | ⟨rfl, rfl, -⟩
    · rw [t.next_answer]
      exact Nat.lt_add_right _ (h.below key k hold)
    · cases hkey : t.lookupExpression key with
      | some j =>
        rw [answer, t.numberExpression_of_some hkey] at hk
        exact absurd (h.below key _ hk) (Nat.lt_irrefl _)
      | none =>
        rw [answer, t.numberExpression_of_none hkey]
        exact Nat.lt_succ_self _
  · intro key key' k hk hk'
    -- a number from the counter is larger than those of the keys from before
    rcases lookupExpression_of_answer hk with hold | ⟨hkey, rfl, -⟩
    · rcases lookupExpression_of_answer hk' with hold' | ⟨-, rfl, -⟩
      · exact h.injective key key' k hold hold'
      · exact absurd (h.below key _ hold) (Nat.lt_irrefl _)
    · rcases lookupExpression_of_answer hk' with hold' | ⟨hkey', -, -⟩
      · exact absurd (h.below key' _ hold') (Nat.lt_irrefl _)
      · exact Request.expression.inj (hkey.symm.trans hkey')

end Table

/-! ### What calls keep -/

namespace Ledger

/-- What holds of a table and its answers. -/
structure Sound (l : Ledger) : Prop where
  value_issued : ∀ v k, l.table.lookupValue v = some k → l.table.Issued k
  expression_issued : ∀ text k, l.table.lookupExpression text = some k → l.table.Issued k
  answer_issued : ∀ e ∈ l.log, l.table.Issued e.answer.number
  next_eq : l.table.next = l.log.countP Entry.isFresh + 1
  ascending : l.log.Pairwise fun e e' ↦ e'.isFresh = true → e.answer.number < e'.answer.number
  expression_iff : ∀ text k, l.table.lookupExpression text = some k ↔
    ∃ e ∈ l.log, e.request = .expression text ∧ e.answer.number = k
  expression_inj : ∀ text text' k, l.table.lookupExpression text = some k →
    l.table.lookupExpression text' = some k → text = text'
  value_apart : ∀ e ∈ l.log, ∀ v, e.request = .value v → e.answer.existed = false →
    ∀ text, l.table.lookupExpression text ≠ some e.answer.number
  lookupValue_eq : ∀ v, l.table.lookupValue v =
    (l.log.filter (·.request.concerns v)).getLast?.map (·.answer.number)

/-- An empty table has answered nothing. -/
theorem Sound.empty : Sound {} := by
  constructor <;> simp [Table.lookupValue, Table.lookupExpression, Table.empty]

namespace Sound

variable {l : Ledger} {r : Request}

/-- The counter starts at one. -/
theorem next_pos (hl : l.Sound) : 0 < l.table.next := hl.next_eq ▸ Nat.succ_pos _

/-- Keys are apart. -/
theorem keysApart (hl : l.Sound) : l.table.KeysApart :=
  ⟨fun text k h ↦ (hl.expression_issued text k h).2, hl.expression_inj⟩

/-- A number stays issued. -/
theorem issued_answer {t : Table} {k : Number} (hk : t.Issued k) : (t.answer r).1.Issued k := by
  refine ⟨hk.1, Nat.lt_of_lt_of_le hk.2 ?_⟩
  rw [t.next_answer]
  exact Nat.le_add_right _ _

/-- Every answer to a permitted request is issued then. -/
theorem answered_issued (hl : l.Sound) (hr : l.Permits (.request r)) :
    (l.table.answer r).1.Issued (l.table.answer r).2.number := by
  have hnext := l.table.next_answer r
  have horigin := l.table.origin_answer r
  generalize (l.table.answer r).2 = answer at hnext horigin
  cases horigin with
  | newValue v h => exact ⟨hl.next_pos, hnext ▸ Nat.lt_succ_self _⟩
  | knownValue v k h => exact issued_answer (hl.value_issued v k h)
  | newExpression text h => exact ⟨hl.next_pos, hnext ▸ Nat.lt_succ_self _⟩
  | knownExpression text k h => exact issued_answer (hl.expression_issued text k h)
  | renumber v k existed =>
    obtain ⟨e, he, rfl⟩ := hr
    exact issued_answer (hl.answer_issued e he)

/-- A request keeps all this. -/
theorem request (hl : l.Sound) (hr : l.Permits (.request r)) : (l.step (.request r)).Sound where
  value_issued := by
    intro v k hv
    rw [step, Table.lookupValue_answer] at hv
    split at hv
    · cases hv
      exact hl.answered_issued hr
    · exact issued_answer (hl.value_issued v k hv)
  expression_issued := by
    intro text k hk
    rcases Table.lookupExpression_of_answer hk with hold | ⟨-, rfl, hnumber⟩
    · exact issued_answer (hl.expression_issued text k hold)
    · exact hnumber ▸ hl.answered_issued hr
  answer_issued := by
    intro e he
    rcases List.mem_append.mp he with he | he
    · exact issued_answer (hl.answer_issued e he)
    · rw [List.mem_singleton.mp he]
      exact hl.answered_issued hr
  next_eq := by
    rw [step, Table.next_answer, List.countP_append, List.countP_singleton, hl.next_eq]
    exact Nat.add_right_comm _ _ _
  ascending := by
    rw [step, List.pairwise_append]
    refine ⟨hl.ascending, List.pairwise_singleton _ _, ?_⟩
    intro e he e' he' hfresh
    rw [List.mem_singleton.mp he'] at hfresh ⊢
    -- every earlier number lies below the counter, and a first answer is the counter
    rw [Table.number_of_fresh hfresh]
    exact (hl.answer_issued e he).2
  expression_iff := by
    intro text k
    constructor
    · intro hk
      rcases Table.lookupExpression_of_answer hk with hold | ⟨htext, hnext, hnumber⟩
      · obtain ⟨e, he, hrequest⟩ := (hl.expression_iff text k).mp hold
        exact ⟨e, List.mem_append_left _ he, hrequest⟩
      · exact ⟨_, List.mem_append_right _ (List.mem_singleton.mpr rfl), htext,
          hnumber.trans hnext.symm⟩
    · rintro ⟨e, he, htext, rfl⟩
      rcases List.mem_append.mp he with he | he
      · exact Table.lookupExpression_answer_of_some
          ((hl.expression_iff text _).mpr ⟨e, he, htext, rfl⟩) r
      · rw [List.mem_singleton.mp he] at htext ⊢
        subst htext
        exact l.table.lookupExpression_answer_self text
  expression_inj := (Table.keysApart_answer l.table r hl.keysApart).injective
  value_apart := by
    intro e he v hvalue hnew text hk
    rcases List.mem_append.mp he with he | he
    · rcases Table.lookupExpression_of_answer hk with hold | ⟨-, hnext, -⟩
      · exact hl.value_apart e he v hvalue hnew text hold
      · exact Nat.ne_of_lt (hl.answer_issued e he).2 hnext
    · rw [List.mem_singleton.mp he] at hvalue hnew hk
      subst hvalue
      rcases Table.lookupExpression_of_answer hk with hold | ⟨htext, -, -⟩
      · have hfresh : Entry.isFresh ⟨.value v, (l.table.answer (.value v)).2⟩ = true := by
          simpa [Entry.isFresh] using hnew
        rw [Table.number_of_fresh hfresh] at hold
        exact Nat.lt_irrefl _ (hl.expression_issued text _ hold).2
      · cases htext
  lookupValue_eq := by
    intro v
    rw [step, Table.lookupValue_answer, List.filter_append, hl.lookupValue_eq]
    by_cases h : r.concerns v
    · simp [h]
    · simp [h]

/-- Every permitted call keeps it. -/
theorem step (hl : l.Sound) {call : Call} (h : l.Permits call) : (l.step call).Sound := by
  cases call with
  | request r => exact hl.request h
  | reset => exact .empty

/-- Every run of permitted calls keeps it. -/
theorem run (hl : l.Sound) {calls : List Call} (h : l.PermitsAll calls) : (l.run calls).Sound := by
  induction calls generalizing l with
  | nil => exact hl
  | cons call calls ih => exact ih (hl.step h.1) h.2

end Sound

/-- After every run of calls to an empty table in which aliases repeat numbers answered since the
table was last emptied: all numbers held lie between one and the counter; the counter counts the
first answers; a first answer is larger than every answer before it; an expression has the number
of every answer for it, another one than every other expression and than every first answer for a
value; and a value has the number of the last answer that concerns it. -/
theorem run_issues_once (calls : List Call) (l : Ledger) (h : PermitsAll {} calls)
    (hl : run {} calls = l) :
    (∀ v k, l.table.lookupValue v = some k → 1 ≤ k ∧ k < l.table.next) ∧
    (∀ text k, l.table.lookupExpression text = some k → 1 ≤ k ∧ k < l.table.next) ∧
    l.table.next = l.log.countP Entry.isFresh + 1 ∧
    (l.log.Pairwise fun e e' ↦ e'.isFresh = true → e.answer.number < e'.answer.number) ∧
    (∀ text k, l.table.lookupExpression text = some k ↔
      ∃ e ∈ l.log, e.request = .expression text ∧ e.answer.number = k) ∧
    (∀ text text' k, l.table.lookupExpression text = some k →
      l.table.lookupExpression text' = some k → text = text') ∧
    (∀ e ∈ l.log, ∀ v, e.request = .value v → e.answer.existed = false →
      ∀ text, l.table.lookupExpression text ≠ some e.answer.number) ∧
    ∀ v, l.table.lookupValue v =
      (l.log.filter (·.request.concerns v)).getLast?.map (·.answer.number) := by
  have hsound : l.Sound := hl ▸ Sound.empty.run h
  exact ⟨hsound.value_issued, hsound.expression_issued, hsound.next_eq, hsound.ascending,
    hsound.expression_iff, hsound.expression_inj, hsound.value_apart, hsound.lookupValue_eq⟩

/-- Calls in which a value is renumbered to the number of an expression and back, on both sides
of a reset. -/
def shuffle : List Call := [
  .request (.value 4), .request (.expression "1 add 1"), .reset,
  .request (.expression "1 add 1"), .request (.value 4), .request (.renumber 4 1),
  .request (.value 9), .request (.value 4), .request (.renumber 4 2), .request (.expression "2")]

/-- What holds after these calls. -/
theorem shuffle_issues_once :
    PermitsAll {} shuffle ∧
    ((run {} shuffle).log.Pairwise fun e e' ↦
      e'.isFresh = true → e.answer.number < e'.answer.number) ∧
    (run {} shuffle).table.next = 5 ∧ (run {} shuffle).table.lookupValue 4 = some 2 := by
  have hpermitted : PermitsAll {} shuffle := by decide
  obtain ⟨-, -, hnext, hascending, -, -, -, hlast⟩ := run_issues_once shuffle _ hpermitted rfl
  refine ⟨hpermitted, hascending, ?_, ?_⟩
  · rw [hnext]
    decide
  · rw [hlast]
    decide

end Ledger

end BlockFlow.Numbering
