import BlockFlow.Proofs.Solver.Sweep
import BlockFlow.Solver.RoundRobin

/-!
# Round-robin runs

A visit replaces the set of its block by the demand of its successors, and reports a change exactly
if the two differ. A sweep that reports none has therefore left the sets alone and found every
scheduled equation satisfied, and whatever such replacements keep holds after every sweep.
-/

namespace BlockFlow.RoundRobin

variable {α : Type} [FactOrder α] {n : Nat}

/-- A visit writes the demand, also where it is the set that stands there. -/
theorem visit_out (eqs : Equations α n) (state : RoundRobin α n) (v : Visit n) :
    (visit eqs state v).out = replaceRow state.out v.block (v.demand eqs state.out) := by
  dsimp only [visit]
  split
  · next h =>
    rw [h]
    exact (replaceRow_get _ _).symm
  · rfl

/-- A visit reports a change if there was one before it or the demand is new. -/
theorem visit_changed_iff (eqs : Equations α n) (state : RoundRobin α n) (v : Visit n) :
    (visit eqs state v).changed = true ↔
      state.changed = true ∨ v.demand eqs state.out ≠ state.out.get v.block := by
  dsimp only [visit]
  split
  · next h => exact ⟨.inl, fun hc ↦ hc.resolve_right (not_not.mpr h)⟩
  · next h => exact ⟨fun _ ↦ .inr h, fun _ ↦ rfl⟩

/-- Every visit counts. -/
theorem visit_visits (eqs : Equations α n) (state : RoundRobin α n) (v : Visit n) :
    (visit eqs state v).visits = state.visits + 1 := by
  dsimp only [visit]
  split <;> rfl

private theorem foldl_visits (eqs : Equations α n) (visits : List (Visit n))
    (state : RoundRobin α n) :
    (visits.foldl (visit eqs) state).visits = state.visits + visits.length := by
  induction visits generalizing state with
  | nil => rfl
  | cons v visits ih =>
    rw [List.foldl_cons, ih, visit_visits, List.length_cons]
    omega

private theorem foldl_at_rest (eqs : Equations α n) (visits : List (Visit n))
    (state : RoundRobin α n) (h : (visits.foldl (visit eqs) state).changed = false) :
    state.changed = false ∧ (visits.foldl (visit eqs) state).out = state.out ∧
      ∀ v ∈ visits, v.demand eqs state.out = state.out.get v.block := by
  induction visits generalizing state with
  | nil => exact ⟨h, rfl, fun v hv ↦ by simp at hv⟩
  | cons v visits ih =>
    obtain ⟨hchanged, hout, hrest⟩ := ih (visit eqs state v) h
    have hquiet : ¬(state.changed = true ∨ v.demand eqs state.out ≠ state.out.get v.block) := by
      rw [← visit_changed_iff, hchanged]
      simp
    rw [not_or, not_not] at hquiet
    have hsame : (visit eqs state v).out = state.out := by
      rw [visit_out, hquiet.2]
      exact replaceRow_get _ _
    rw [hsame] at hout hrest
    refine ⟨by simpa using hquiet.1, hout, ?_⟩
    intro u hu
    rcases List.mem_cons.mp hu with rfl | hu
    · exact hquiet.2
    · exact hrest u hu

/-- A sweep that reports no change has left the sets as they were and found the set of every
scheduled block equal to the demand of its successors. -/
theorem sweep_at_rest (eqs : Equations α n) (schedule : Schedule n) (state : RoundRobin α n)
    (h : (sweep eqs schedule state).changed = false) :
    (sweep eqs schedule state).out = state.out ∧
      ∀ v ∈ schedule, v.demand eqs state.out = state.out.get v.block :=
  (foldl_at_rest eqs schedule _ h).2

/-! ### The states of a run -/

/-- The state after so many sweeps, whether or not they change anything. -/
def after (eqs : Equations α n) (schedule : Schedule n) : Nat → RoundRobin α n
  | 0 => start
  | k + 1 => sweep eqs schedule (after eqs schedule k)

variable (eqs : Equations α n) (schedule : Schedule n)

/-- No sweep fails. -/
theorem stateAfter_eq_after (k : Nat) :
    stateAfter (fun state ↦ .ok (sweep eqs schedule state)) start k =
      .ok (after eqs schedule k) := by
  induction k with
  | zero => rfl
  | succ k ih =>
    rw [stateAfter, ih]
    rfl

/-- Each sweep visits every scheduled block. -/
theorem visits_after (k : Nat) :
    (after eqs schedule k).visits = k * schedule.length := by
  induction k with
  | zero => simp [after, start]
  | succ k ih =>
    rw [after, sweep, foldl_visits]
    dsimp only
    rw [ih, Nat.succ_mul]

/-- What holds of empty sets and is kept where the set of a scheduled block is replaced by the
demand of its successors holds after every sweep. -/
theorem after_keeps (P : FactSets α n → Prop) (hstart : P (Vector.replicate n ∅))
    (hstep : ∀ out, P out → ∀ v ∈ schedule, P (replaceRow out v.block (v.demand eqs out)))
    (k : Nat) : P (after eqs schedule k).out := by
  induction k with
  | zero => exact hstart
  | succ k ih =>
    rw [after, sweep]
    -- the flag that a sweep resets does not matter to the sets
    refine List.foldlRecOn schedule (motive := fun state : RoundRobin α n ↦ P state.out) _ ih ?_
    intro state hstate v hv
    rw [visit_out]
    exact hstep state.out hstate v hv

variable {eqs schedule}

private theorem busy_iff (k : Nat) :
    Busy (fun state ↦ .ok (sweep eqs schedule state)) changed start k ↔
      ∀ j < k, (after eqs schedule (j + 1)).changed = true := by
  unfold Busy
  simp only [stateAfter_eq_after, Except.ok.injEq, exists_eq_left']

/-- A run ends at the first sweep that changes nothing. -/
theorem run_eq_ok_iff {cap count : Nat} {final : RoundRobin α n} :
    run eqs schedule cap = .ok (final, count) ↔
      ∃ k < cap, count = k + 1 ∧ (∀ j < k, (after eqs schedule (j + 1)).changed = true) ∧
        after eqs schedule (k + 1) = final ∧ final.changed = false := by
  unfold run
  rw [sweepToRest_eq_ok_iff]
  simp only [busy_iff, stateAfter_eq_after, Except.ok.injEq, Nat.zero_add]

/-- A run fails only by reaching its cap. -/
theorem run_eq_error_iff {cap : Nat} {error : SolveError} :
    run eqs schedule cap = .error error ↔
      error = .iterationLimit cap schedule.length ∧
        ∀ j < cap, (after eqs schedule (j + 1)).changed = true := by
  unfold run
  rw [sweepToRest_eq_error_iff _ _ _ _ _ _ _ fun k ↦ ⟨_, stateAfter_eq_after eqs schedule k⟩,
    busy_iff]

end BlockFlow.RoundRobin
