import BlockFlow.Proofs.Fallible
import BlockFlow.Solver.Error
import BlockFlow.Solver.Sweep

/-!
# Runs of sweeps

The states that a run passes through do not depend on the cap: they are the states after one sweep,
after two sweeps and so on. A run stops at the first of them that its sweep left unchanged, or
where a sweep fails, or at the cap.
-/

namespace BlockFlow

variable {σ : Type}

/-- The state after so many sweeps, whether or not they change anything. -/
def stateAfter (sweep : σ → Except SolveError σ) (state : σ) : Nat → Except SolveError σ
  | 0 => .ok state
  | k + 1 => stateAfter sweep state k >>= sweep

/-- The first sweep may be split off instead of the last one. -/
theorem stateAfter_succ (sweep : σ → Except SolveError σ) (state : σ) (k : Nat) :
    stateAfter sweep state (k + 1) = sweep state >>= fun next ↦ stateAfter sweep next k := by
  induction k with
  | zero => cases h : sweep state <;> simp [stateAfter, h, bind, Except.bind]
  | succ k ih =>
    calc stateAfter sweep state (k + 1 + 1)
        = stateAfter sweep state (k + 1) >>= sweep := rfl
      _ = (sweep state >>= fun next ↦ stateAfter sweep next k) >>= sweep := by rw [ih]
      _ = sweep state >>= fun next ↦ stateAfter sweep next (k + 1) := bind_assoc _ _ _

/-- Each of the first `k` sweeps succeeds and changes something. -/
def Busy (sweep : σ → Except SolveError σ) (changed : σ → Bool) (state : σ) (k : Nat) : Prop :=
  ∀ j < k, ∃ next, stateAfter sweep state (j + 1) = .ok next ∧ changed next = true

private theorem busy_succ {sweep : σ → Except SolveError σ} {changed : σ → Bool}
    {state next : σ} (h : sweep state = .ok next) (hc : changed next = true) (k : Nat) :
    Busy sweep changed state (k + 1) ↔ Busy sweep changed next k := by
  have hshift (j : Nat) : stateAfter sweep state (j + 1) = stateAfter sweep next j := by
    rw [stateAfter_succ, h]
    rfl
  constructor
  · intro hbusy j hj
    obtain ⟨u, hu, hcu⟩ := hbusy (j + 1) (by omega)
    exact ⟨u, by rw [← hshift, hu], hcu⟩
  · intro hbusy j hj
    cases j with
    | zero => exact ⟨next, by rw [hshift]; rfl, hc⟩
    | succ j =>
      obtain ⟨u, hu, hcu⟩ := hbusy j (by omega)
      exact ⟨u, by rw [hshift, hu], hcu⟩

/-- A run succeeds exactly if some sweep before the cap changes nothing and every sweep before
that one changes something. -/
theorem sweepToRest_eq_ok_iff (sweep : σ → Except SolveError σ) (changed : σ → Bool)
    (exhausted : SolveError) (fuel passes : Nat) (state final : σ) (count : Nat) :
    sweepToRest sweep changed exhausted fuel passes state = .ok (final, count) ↔
      ∃ k < fuel, count = passes + k + 1 ∧ Busy sweep changed state k ∧
        stateAfter sweep state (k + 1) = .ok final ∧ changed final = false := by
  induction fuel generalizing passes state with
  | zero => simp [sweepToRest]
  | succ fuel ih =>
    rw [sweepToRest, bind_eq_ok_iff]
    constructor
    · rintro ⟨next, hnext, h⟩
      split at h
      · next hc =>
        obtain ⟨k, hk, hcount, hbusy, hfinal, hrest⟩ := (ih (passes + 1) next).mp h
        refine ⟨k + 1, by omega, by omega, (busy_succ hnext hc k).mpr hbusy, ?_, hrest⟩
        rw [stateAfter_succ, hnext]
        exact hfinal
      · next hc =>
        cases h
        refine ⟨0, by omega, rfl, fun j hj ↦ by omega, ?_, by simpa using hc⟩
        rw [stateAfter_succ, hnext]
        rfl
    · rintro ⟨k, hk, hcount, hbusy, hfinal, hrest⟩
      rw [stateAfter_succ, bind_eq_ok_iff] at hfinal
      obtain ⟨next, hnext, hfinal⟩ := hfinal
      refine ⟨next, hnext, ?_⟩
      cases k with
      | zero =>
        cases hfinal
        rw [if_neg (by simp [hrest]), hcount]
      | succ k =>
        obtain ⟨u, hu, hc⟩ := hbusy 0 (by omega)
        rw [stateAfter_succ, hnext] at hu
        cases hu
        rw [if_pos hc]
        exact (ih (passes + 1) next).mpr ⟨k, by omega, by omega,
          (busy_succ hnext hc k).mp hbusy, hfinal, hrest⟩

/-- Where every sweep succeeds, a run fails exactly if no sweep before the cap comes to rest, and
then with the error of an exhausted cap. -/
theorem sweepToRest_eq_error_iff (sweep : σ → Except SolveError σ) (changed : σ → Bool)
    (exhausted error : SolveError) (fuel passes : Nat) (state : σ)
    (htotal : ∀ k, ∃ next, stateAfter sweep state k = .ok next) :
    sweepToRest sweep changed exhausted fuel passes state = .error error ↔
      error = exhausted ∧ Busy sweep changed state fuel := by
  induction fuel generalizing passes state with
  | zero =>
    simp only [sweepToRest, Except.error.injEq]
    exact ⟨fun h ↦ ⟨h.symm, fun j hj ↦ by omega⟩, fun h ↦ h.1.symm⟩
  | succ fuel ih =>
    obtain ⟨next, hnext⟩ := htotal 1
    have hsweep : sweep state = .ok next := by
      rw [stateAfter_succ, bind_eq_ok_iff] at hnext
      obtain ⟨u, hu, h⟩ := hnext
      cases h
      exact hu
    have htotal' : ∀ k, ∃ u, stateAfter sweep next k = .ok u := by
      intro k
      obtain ⟨u, hu⟩ := htotal (k + 1)
      rw [stateAfter_succ, hsweep] at hu
      exact ⟨u, hu⟩
    have hunfold : sweepToRest sweep changed exhausted (fuel + 1) passes state =
        if changed next then sweepToRest sweep changed exhausted fuel (passes + 1) next
        else .ok (next, passes + 1) := by
      rw [sweepToRest, hsweep]
      rfl
    rw [hunfold]
    split
    · next hc => rw [ih (passes + 1) next htotal', busy_succ hsweep hc]
    · next hc =>
      constructor
      · intro h
        cases h
      · rintro ⟨-, hbusy⟩
        obtain ⟨u, hu, hcu⟩ := hbusy 0 (by omega)
        rw [hnext] at hu
        cases hu
        exact absurd hcu hc

/-- A run fails only by its cap or where a sweep fails. -/
theorem exists_of_sweepToRest_eq_error {sweep : σ → Except SolveError σ} {changed : σ → Bool}
    {exhausted error : SolveError} {fuel passes : Nat} {state : σ}
    (h : sweepToRest sweep changed exhausted fuel passes state = .error error) :
    error = exhausted ∨ ∃ state, sweep state = .error error := by
  induction fuel generalizing passes state with
  | zero =>
    cases h
    exact .inl rfl
  | succ fuel ih =>
    rw [sweepToRest] at h
    rcases bind_eq_error_iff.mp h with hsweep | ⟨next, -, h⟩
    · exact .inr ⟨state, hsweep⟩
    · split at h
      · exact ih h
      · cases h

/-- A run whose sweeps differ from others only in what they call their errors differs from the
other run only so. -/
theorem sweepToRest_mapError {δ : Type} (rename : SolveError → δ)
    {sweep : σ → Except SolveError σ} {sweep' : σ → Except δ σ}
    (h : ∀ state, sweep' state = (sweep state).mapError rename) (changed : σ → Bool)
    (exhausted : SolveError) (fuel passes : Nat) (state : σ) :
    sweepToRest sweep' changed (rename exhausted) fuel passes state =
      (sweepToRest sweep changed exhausted fuel passes state).mapError rename := by
  induction fuel generalizing passes state with
  | zero => rfl
  | succ fuel ih =>
    rw [sweepToRest, sweepToRest, h, mapError_bind]
    congr 1
    funext next
    split
    · exact ih (passes + 1) next
    · rfl

/-- A run whose sweeps commute with a translation of the states commutes with it. -/
theorem sweepToRest_translate {ε τ : Type} (translate : σ → τ) {sweep : σ → Except ε σ}
    {sweep' : τ → Except ε τ} {changed : σ → Bool} {changed' : τ → Bool}
    (h : ∀ state, sweep' (translate state) = (sweep state).map translate)
    (hchanged : ∀ state, changed' (translate state) = changed state) (exhausted : ε)
    (fuel passes : Nat) (state : σ) :
    sweepToRest sweep' changed' exhausted fuel passes (translate state) =
      (sweepToRest sweep changed exhausted fuel passes state).map
        fun run ↦ (translate run.1, run.2) := by
  induction fuel generalizing passes state with
  | zero => rfl
  | succ fuel ih =>
    rw [sweepToRest, sweepToRest, h]
    cases sweep state with
    | error e => rfl
    | ok next =>
      change (if changed' (translate next) then _ else _) =
        Except.map _ (if changed next then _ else _)
      rw [hchanged]
      split
      · exact ih (passes + 1) next
      · rfl

end BlockFlow
