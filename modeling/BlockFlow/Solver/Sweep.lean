/-!
# Sweeping until nothing changes

Both strategies repeat a sweep until one of them leaves every set as it was. That last, confirming
sweep counts, and a cap bounds the number of sweeps.
-/

namespace BlockFlow

/-- Repeats `sweep`, at most `fuel` more times after the `passes` made so far, up to and including
the first sweep that reports no change. Answers the state after it and the number of sweeps. -/
def sweepToRest {σ ε : Type} (sweep : σ → Except ε σ) (changed : σ → Bool) (exhausted : ε) :
    (fuel passes : Nat) → σ → Except ε (σ × Nat)
  | 0, _, _ => .error exhausted
  | fuel + 1, passes, state => do
    let next ← sweep state
    if changed next then sweepToRest sweep changed exhausted fuel (passes + 1) next
    else .ok (next, passes + 1)

end BlockFlow
