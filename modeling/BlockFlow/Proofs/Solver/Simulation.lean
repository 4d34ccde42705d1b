import BlockFlow.Proofs.Solver.Worklist
import BlockFlow.Solver

/-!
# The two strategies in step

A worklist state matches a round-robin state if it is consistent, holds the same sets, reports a
change where the other does and has made no more visits. Visits, sweeps and runs keep the match,
provided the edge lists of the graph agree; a worklist run fails where the other does not only by
meeting a predecessor that has no row.
-/

namespace BlockFlow

variable {α : Type} [FactOrder α] {n : Nat} {eqs : Equations α n} {schedule : Schedule n}

namespace Worklist

/-- The state after so many sweeps, whether or not they change anything. -/
def after (eqs : Equations α n) (schedule : Schedule n) (k : Nat) :
    Except SolveError (Worklist α n) :=
  stateAfter (sweep eqs schedule) (start eqs schedule) k

/-- A worklist state and a round-robin state that have come equally far. -/
structure Matches (eqs : Equations α n) (schedule : Schedule n) (w : Worklist α n)
    (r : RoundRobin α n) : Prop extends Consistent eqs schedule w where
  out_eq : w.out = r.out
  changed_eq : w.changed = r.changed
  visits_le : w.visits ≤ r.visits

namespace Matches

variable {w w' : Worklist α n} {r : RoundRobin α n}

/-- A visit keeps the match. -/
theorem visit (hm : Matches eqs schedule w r) (hs : schedule.Linked) {v : Visit n}
    (hv : v ∈ schedule) (h : Worklist.visit eqs w v = .ok w') :
    Matches eqs schedule w' (RoundRobin.visit eqs r v) := by
  have hw : Consistent eqs schedule w := hm.toConsistent
  have hturn : Turn eqs w v w' := turn_of_visit h
  refine ⟨hw.turn hs hv hturn, ?_, ?_, ?_⟩
  · rw [hw.turn_out hv hturn, RoundRobin.visit_out, hm.out_eq]
  · rw [Bool.eq_iff_iff, hw.turn_changed_iff hv hturn, RoundRobin.visit_changed_iff, hm.out_eq,
      hm.changed_eq]
  · rw [RoundRobin.visit_visits]
    have hle := hturn.visits_le
    have hvisits := hm.visits_le
    omega

/-- A sweep keeps the match. -/
theorem sweep (hm : Matches eqs schedule w r) (hs : schedule.Linked)
    (h : Worklist.sweep eqs schedule w = .ok w') :
    Matches eqs schedule w' (RoundRobin.sweep eqs schedule r) := by
  have hreset : Matches eqs schedule { w with changed := false } { r with changed := false } :=
    ⟨⟨hm.remembered, hm.settled⟩, hm.out_eq, rfl, hm.visits_le⟩
  refine foldlM_simulates (Matches eqs schedule) schedule ?_ hreset h
  intro v hv w w' r hm h
  exact hm.visit hs hv h

end Matches

/-- After every number of sweeps that the worklist survives, the two strategies match. -/
theorem matches_after (hs : schedule.Linked) {k : Nat} {w : Worklist α n}
    (h : after eqs schedule k = .ok w) :
    Matches eqs schedule w (RoundRobin.after eqs schedule k) := by
  induction k generalizing w with
  | zero =>
    cases h
    exact ⟨consistent_start, rfl, rfl, Nat.le_refl 0⟩
  | succ k ih =>
    obtain ⟨last, hlast, h⟩ := bind_eq_ok_iff.mp h
    exact (ih hlast).sweep hs h

/-- No sweep fails if every predecessor of a scheduled block has a row. -/
theorem exists_after (eqs : Equations α n) (hp : ∀ v ∈ schedule, ∀ p ∈ v.predecessors, p < n)
    (k : Nat) :
    ∃ w, after eqs schedule k = .ok w := by
  induction k with
  | zero => exact ⟨start eqs schedule, rfl⟩
  | succ k ih =>
    obtain ⟨w, hw⟩ := ih
    have hvisit : ∀ v ∈ schedule, ∀ w, ∃ w', visit eqs w v = .ok w' :=
      fun v hv w ↦ exists_visit eqs w (hp v hv)
    obtain ⟨w', hw'⟩ := exists_foldlM schedule hvisit { w with changed := false }
    exact ⟨w', bind_eq_ok_iff.mpr ⟨w, hw, hw'⟩⟩

/-- Where a worklist run succeeds, so does the round-robin run, with as many sweeps. -/
theorem run_matches (hs : schedule.Linked) {cap count : Nat} {w : Worklist α n}
    (h : run eqs schedule cap = .ok (w, count)) :
    ∃ r, RoundRobin.run eqs schedule cap = .ok (r, count) ∧ Matches eqs schedule w r := by
  obtain ⟨k, hk, hcount, hbusy, hfinal, hrest⟩ :=
    (sweepToRest_eq_ok_iff _ _ _ _ _ _ _ _).mp h
  have hm : Matches eqs schedule w (RoundRobin.after eqs schedule (k + 1)) :=
    matches_after hs hfinal
  refine ⟨_, RoundRobin.run_eq_ok_iff.mpr ⟨k, hk, by omega, ?_, rfl, ?_⟩, hm⟩
  · intro j hj
    obtain ⟨u, hu, hchanged⟩ := hbusy j hj
    rw [← (matches_after hs hu).changed_eq, hchanged]
  · rw [← hm.changed_eq, hrest]

/-- Where no predecessor can be missing, a worklist run fails only where the round-robin run
fails, and as it does. -/
theorem run_error_matches (hs : schedule.Linked)
    (hp : ∀ v ∈ schedule, ∀ p ∈ v.predecessors, p < n) {cap : Nat} {error : SolveError}
    (h : run eqs schedule cap = .error error) :
    RoundRobin.run eqs schedule cap = .error error := by
  obtain ⟨rfl, hbusy⟩ :=
    (sweepToRest_eq_error_iff _ _ _ _ _ _ _ (exists_after eqs hp)).mp h
  refine RoundRobin.run_eq_error_iff.mpr ⟨rfl, ?_⟩
  intro j hj
  obtain ⟨u, hu, hchanged⟩ := hbusy j hj
  rw [← (matches_after hs hu).changed_eq, hchanged]

/-- A worklist run fails only by its cap or by a predecessor that has no row. -/
theorem exists_of_run_eq_error {cap : Nat} {error : SolveError}
    (h : run eqs schedule cap = .error error) :
    error = .iterationLimit cap schedule.length ∨
      ∃ v ∈ schedule, ∃ p ∈ v.predecessors, n ≤ p ∧ error = .missingBlock p := by
  refine (exists_of_sweepToRest_eq_error h).imp_right ?_
  rintro ⟨w, hsweep⟩
  obtain ⟨v, hv, w, hvisit⟩ := exists_of_foldlM_eq_error hsweep
  exact ⟨v, hv, exists_of_visit_eq_error hvisit⟩

end Worklist

/-! ### Outcomes -/

namespace Solver

variable {g : FlowGraph} {cap : Nat}

/-- A graph that cannot be scheduled has the same fault under every solver. -/
theorem solve_of_schedule_error {solver : Solver} {error : SolveError}
    (h : g.schedule n = .error error) : solver.solve g eqs = .error error := by
  rw [solve, h]
  rfl

/-- The solution of a round-robin run. -/
theorem solve_roundRobin (h : g.schedule n = .ok schedule) :
    solve ⟨.roundRobin, cap⟩ g eqs = (RoundRobin.run eqs schedule cap).map fun run ↦
      { out := run.1.out, iterations := run.2, visits := run.1.visits
        strategy := .roundRobin } := by
  rw [solve, h]
  rfl

/-- The solution of a worklist run. -/
theorem solve_worklist (h : g.schedule n = .ok schedule) :
    solve ⟨.worklist, cap⟩ g eqs = (Worklist.run eqs schedule cap).map fun run ↦
      { out := run.1.out, iterations := run.2, visits := run.1.visits
        strategy := .worklist } := by
  rw [solve, h]
  rfl

/-- Where the edge lists agree and the predecessors of enumerated blocks have rows, the strategies
have the same outcome: the same error, or the same sets after the same number of sweeps, the
worklist making no more visits than the one visit of every enumerated block in each sweep. The sets
also agree after every single sweep. -/
theorem strategies_agree (g : FlowGraph) (eqs : Equations α n) (cap : Nat) (hg : g.EdgesAgree)
    (hp : ∀ b ∈ g.blocks, ∀ p ∈ g.predecessors b, p < n) :
    ((∃ error, solve ⟨.roundRobin, cap⟩ g eqs = .error error ∧
        solve ⟨.worklist, cap⟩ g eqs = .error error) ∨
      ∃ r w, solve ⟨.roundRobin, cap⟩ g eqs = .ok r ∧ solve ⟨.worklist, cap⟩ g eqs = .ok w ∧
        w.out = r.out ∧ w.iterations = r.iterations ∧ w.visits ≤ r.visits ∧
        r.visits = r.iterations * g.blocks.length) ∧
    ∀ schedule, g.schedule n = .ok schedule → ∀ k, ∃ w, Worklist.after eqs schedule k = .ok w ∧
      w.out = (RoundRobin.after eqs schedule k).out := by
  have hrows {schedule : Schedule n} (h : g.schedule n = .ok schedule) :
      ∀ v ∈ schedule, ∀ p ∈ v.predecessors, p < n := by
    intro v hv p hmem
    rw [FlowGraph.predecessors_eq h hv] at hmem
    exact hp v.block (FlowGraph.visit_of_mem_schedule h hv).1 p hmem
  constructor
  · cases h : g.schedule n with
    | error error =>
      exact .inl ⟨error, solve_of_schedule_error h, solve_of_schedule_error h⟩
    | ok schedule =>
      have hs : schedule.Linked := hg.linked h
      rw [solve_roundRobin h, solve_worklist h]
      cases hw : Worklist.run eqs schedule cap with
      | error error =>
        rw [Worklist.run_error_matches hs (hrows h) hw]
        exact .inl ⟨error, rfl, rfl⟩
      | ok run =>
        obtain ⟨r, hr, hm⟩ := Worklist.run_matches hs hw
        rw [hr]
        refine .inr ⟨_, _, rfl, rfl, hm.out_eq, rfl, hm.visits_le, ?_⟩
        obtain ⟨k, -, hcount, -, hfinal, -⟩ := RoundRobin.run_eq_ok_iff.mp hr
        rw [← FlowGraph.length_schedule h, hcount, ← hfinal]
        exact RoundRobin.visits_after eqs schedule (k + 1)
  · intro schedule h k
    obtain ⟨w, hw⟩ := Worklist.exists_after eqs (hrows h) k
    exact ⟨w, hw, (Worklist.matches_after (hg.linked h) hw).out_eq⟩

/-- Two blocks in a loop, the first one also its own successor and enumerated twice, the second one
listed as its own predecessor although it is not. -/
def tangle : FlowGraph where
  blocks := [0, 1, 0]
  successors b := if b = 0 then [1, 0, 1] else [0]
  predecessors _ := [0, 1]

/-- The second block of the tangle kills what the first one generates. -/
def tangleEquations : Equations Nat 2 :=
  #v[{ gen := .ofList [7] }, { gen := .ofList [2], kill := .ofList [7] }]

theorem tangle_edgesAgree : tangle.EdgesAgree := by
  unfold FlowGraph.EdgesAgree
  decide

/-- Both strategies solve the tangle, in the same number of sweeps. -/
theorem tangle_strategies :
    tangle.EdgesAgree ∧ (∀ b ∈ tangle.blocks, ∀ p ∈ tangle.predecessors b, p < 2) ∧
    ∃ r w, solve ⟨.roundRobin, 5⟩ tangle tangleEquations = .ok r ∧
      solve ⟨.worklist, 5⟩ tangle tangleEquations = .ok w ∧ w.out = r.out ∧
      w.iterations = r.iterations ∧ w.visits ≤ r.visits ∧ r.visits = r.iterations * 3 := by
  have hrows : ∀ b ∈ tangle.blocks, ∀ p ∈ tangle.predecessors b, p < 2 := by decide
  have hsolved : (solve ⟨.roundRobin, 5⟩ tangle tangleEquations).isOk = true := by decide +kernel
  refine ⟨tangle_edgesAgree, hrows, ?_⟩
  rcases (strategies_agree tangle tangleEquations 5 tangle_edgesAgree hrows).1 with
    ⟨error, herror, -⟩ | hboth
  · rw [herror] at hsolved
    cases hsolved
  · exact hboth

end Solver

end BlockFlow
