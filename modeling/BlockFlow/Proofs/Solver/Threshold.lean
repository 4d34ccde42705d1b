import BlockFlow.Proofs.Solver.LeastSolution
import Mathlib.Data.Set.Card
import Mathlib.Data.Set.Finite.Lattice
import Mathlib.Order.CompletePartialOrder

/-!
# The cap is a threshold

Every visit recomputes a set from scratch, and yet no set ever shrinks: a block always holds a part
of what its successors demand, and keeps doing so when a set grows. A sweep that changes something
therefore adds a fact at some row. Since only generated facts are ever held, some sweep changes
nothing, cap or no cap. Main statement: a solver whose cap admits that sweep succeeds with it, and
every other one fails by its cap, whatever the strategy.
-/

namespace BlockFlow

variable {α : Type} [FactOrder α] {n : Nat}

/-! ### What the rows hold -/

/-- The facts that the rows hold, each with its row. -/
def FactSets.held (out : FactSets α n) : Set (Fin n × α) := {entry | entry.2 ∈ out.get entry.1}

/-- The facts that some block generates, at every row. -/
def Equations.stock (eqs : Equations α n) : Set (Fin n × α) :=
  {entry | ∃ s, entry.2 ∈ (eqs.get s).gen}

/-- There are finitely many generated facts. -/
theorem Equations.finite_stock (eqs : Equations α n) : eqs.stock.Finite := by
  have hrow (s : Fin n) : {f | f ∈ (eqs.get s).gen}.Finite := by
    have hlist := List.finite_toSet (eqs.get s).gen.toList
    simpa only [Std.ExtTreeSet.mem_toList] using hlist
  have hfacts : (⋃ s, {f | f ∈ (eqs.get s).gen}).Finite := Set.finite_iUnion hrow
  apply (Set.finite_univ.prod hfacts).subset
  rintro ⟨b, f⟩ ⟨s, hf⟩
  exact ⟨Set.mem_univ b, Set.mem_iUnion.mpr ⟨s, hf⟩⟩

/-- Rows that hold the same facts are equal. -/
theorem FactSets.held_injective : Function.Injective (held : FactSets α n → _) := by
  intro out out' h
  apply FactSets.ext_members
  intro b
  ext f
  exact Set.ext_iff.mp h (b, f)

namespace FlowGraph

variable {g : FlowGraph} {eqs : Equations α n} {schedule : Schedule n}

/-- Every enumerated block holds a part of what its successors demand. -/
def Ascending (g : FlowGraph) (eqs : Equations α n) (out : FactSets α n) : Prop :=
  ∀ b : Fin n, ↑b ∈ g.blocks → out.members b ⊆ g.demands eqs out.members b

/-- Where the sets ascend, writing a demand loses no fact. -/
theorem Ascending.held_subset (h : g.schedule n = .ok schedule) {out : FactSets α n}
    (hout : g.Ascending eqs out) {v : Visit n} (hv : v ∈ schedule) :
    out.held ⊆ FactSets.held (replaceRow out v.block (v.demand eqs out)) := by
  rintro ⟨b, f⟩ hf
  change f ∈ (replaceRow out v.block (v.demand eqs out)).get b
  rw [get_replaceRow]
  split
  · next heq =>
    subst heq
    rw [mem_demand_iff h hv]
    exact hout v.block (visit_of_mem_schedule h hv).1 hf
  · exact hf

/-- Writing a demand keeps the sets ascending. -/
theorem Ascending.replaceRow (h : g.schedule n = .ok schedule) {out : FactSets α n}
    (hout : g.Ascending eqs out) {v : Visit n} (hv : v ∈ schedule) :
    g.Ascending eqs (replaceRow out v.block (v.demand eqs out)) := by
  have hgrows := hout.held_subset h hv
  intro b hb f hf
  -- the demand was met by smaller sets, and larger sets demand more
  apply demands_mono (fun c f hf ↦ @hgrows (c, f) hf) b
  rw [FactSets.members, Set.mem_ofPred_eq, get_replaceRow] at hf
  split at hf
  · next heq =>
    subst heq
    exact (mem_demand_iff h hv out f).mp hf
  · exact hout b hb hf

end FlowGraph

namespace RoundRobin

variable {g : FlowGraph} {eqs : Equations α n} {schedule : Schedule n}

/-- A visit loses no fact, and adds one if it is the first to report a change. -/
theorem visit_grows (h : g.schedule n = .ok schedule) {state : RoundRobin α n}
    (hstate : g.Ascending eqs state.out) {v : Visit n} (hv : v ∈ schedule) :
    state.out.held ⊆ (visit eqs state v).out.held ∧
      ((visit eqs state v).changed = true →
        state.changed = true ∨ state.out.held ⊂ (visit eqs state v).out.held) := by
  rw [visit_changed_iff, visit_out]
  have hsubset := hstate.held_subset h hv
  refine ⟨hsubset, Or.imp_right fun hnew ↦ Set.ssubset_iff_subset_ne.mpr ⟨hsubset, ?_⟩⟩
  intro hheld
  have hsame := congrArg (fun out ↦ out.get v.block) (FactSets.held_injective hheld)
  simp only [get_replaceRow] at hsame
  exact hnew hsame.symm

/-- A sweep loses no fact, and adds one if it reports a change. -/
theorem sweep_grows (h : g.schedule n = .ok schedule) {state : RoundRobin α n}
    (hstate : g.Ascending eqs state.out) :
    state.out.held ⊆ (sweep eqs schedule state).out.held ∧
      ((sweep eqs schedule state).changed = true →
        state.out.held ⊂ (sweep eqs schedule state).out.held) := by
  have hfold : g.Ascending eqs (sweep eqs schedule state).out ∧
      state.out.held ⊆ (sweep eqs schedule state).out.held ∧
        ((sweep eqs schedule state).changed = true →
          state.out.held ⊂ (sweep eqs schedule state).out.held) := by
    unfold sweep
    refine List.foldlRecOn schedule (motive := fun s : RoundRobin α n ↦ g.Ascending eqs s.out ∧
      state.out.held ⊆ s.out.held ∧ (s.changed = true → state.out.held ⊂ s.out.held)) _ ?_ ?_
    · exact ⟨hstate, Set.Subset.rfl, fun hchanged ↦ absurd hchanged Bool.false_ne_true⟩
    · rintro s ⟨hs, hsubset, hstrict⟩ v hv
      obtain ⟨hvisit, hnew⟩ := visit_grows h hs hv
      refine ⟨?_, Set.Subset.trans hsubset hvisit, ?_⟩
      · rw [visit_out]
        exact hs.replaceRow h hv
      · intro hchanged
        rcases hnew hchanged with hbefore | hadds
        · exact Set.ssubset_of_ssubset_of_subset (hstrict hbefore) hvisit
        · exact Set.ssubset_of_subset_of_ssubset hsubset hadds
  exact hfold.2

/-- The sets ascend after every sweep. -/
theorem ascending_after (h : g.schedule n = .ok schedule) (k : Nat) :
    g.Ascending eqs (after eqs schedule k).out := by
  apply after_keeps eqs schedule (g.Ascending eqs)
  · intro b _ f hf
    simp [FactSets.members] at hf
  · exact fun out hout v hv ↦ hout.replaceRow h hv

/-- Only generated facts are held after any sweep. -/
theorem held_after_subset_stock (eqs : Equations α n) (schedule : Schedule n) (k : Nat) :
    (after eqs schedule k).out.held ⊆ eqs.stock := by
  apply after_keeps eqs schedule fun out ↦ out.held ⊆ eqs.stock
  · rintro ⟨b, f⟩ hf
    simp [FactSets.held] at hf
  · rintro out hout v hv ⟨b, f⟩ hf
    change f ∈ (replaceRow out v.block (v.demand eqs out)).get b at hf
    rw [get_replaceRow] at hf
    split at hf
    · obtain ⟨s, -, hs⟩ := Visit.mem_demand.mp hf
      rcases Equation.mem_transfer.mp hs with hgen | ⟨hlater, -⟩
      · exact ⟨s, hgen⟩
      · exact @hout (s, f) hlater
    · exact @hout (b, f) hf

/-- After so many sweeps that all changed something, at least as many facts are held. -/
theorem le_ncard_held_after (h : g.schedule n = .ok schedule) (k : Nat)
    (hbusy : ∀ j < k, (after eqs schedule (j + 1)).changed = true) :
    k ≤ (after eqs schedule k).out.held.ncard := by
  induction k with
  | zero => exact Nat.zero_le _
  | succ k ih =>
    have hstrict := (sweep_grows h (ascending_after h k)).2 (hbusy k (by omega))
    have hfinite := eqs.finite_stock.subset (held_after_subset_stock eqs schedule (k + 1))
    have hcard := Set.ncard_lt_ncard hstrict hfinite
    have hk := ih fun j hj ↦ hbusy j (by omega)
    change k + 1 ≤ (sweep eqs schedule (after eqs schedule k)).out.held.ncard
    omega

/-- Some sweep changes nothing. -/
theorem exists_quiet (h : g.schedule n = .ok schedule) :
    ∃ k, (after eqs schedule (k + 1)).changed = false := by
  by_contra hnever
  have hbusy (j : Nat) : (after eqs schedule (j + 1)).changed = true := by
    simpa using not_exists.mp hnever j
  have hmany := le_ncard_held_after h (eqs.stock.ncard + 1) fun j _ ↦ hbusy j
  have hfew := Set.ncard_le_ncard (held_after_subset_stock eqs schedule (eqs.stock.ncard + 1))
    eqs.finite_stock
  omega

/-- The sweep of this number, counted from one, is the first that changes nothing. -/
structure RestsAt (eqs : Equations α n) (schedule : Schedule n) (passes : Nat) : Prop where
  pos : 1 ≤ passes
  busy : ∀ j, 1 ≤ j → j < passes → (after eqs schedule j).changed = true
  quiet : (after eqs schedule passes).changed = false

/-- There is a first sweep that changes nothing. -/
theorem exists_restsAt (eqs : Equations α n) (h : g.schedule n = .ok schedule) :
    ∃ passes, RestsAt eqs schedule passes := by
  have hquiet : ∃ k, (after eqs schedule (k + 1)).changed = false := exists_quiet h
  refine ⟨Nat.find hquiet + 1, by omega, ?_, Nat.find_spec hquiet⟩
  intro j hpos hj
  obtain ⟨i, rfl⟩ : ∃ i, j = i + 1 := ⟨j - 1, by omega⟩
  have hbusy := Nat.find_min hquiet (by omega : i < Nat.find hquiet)
  simpa using hbusy

/-- A run whose cap admits the first sweep that changes nothing ends with it. -/
theorem RestsAt.run_of_le {passes cap : Nat} (hrest : RestsAt eqs schedule passes)
    (hcap : passes ≤ cap) :
    run eqs schedule cap = .ok (after eqs schedule passes, passes) := by
  have hpos := hrest.pos
  obtain ⟨k, rfl⟩ : ∃ k, passes = k + 1 := ⟨passes - 1, by omega⟩
  rw [run_eq_ok_iff]
  refine ⟨k, by omega, rfl, ?_, rfl, hrest.quiet⟩
  intro j hj
  exact hrest.busy (j + 1) (by omega) (by omega)

/-- A run whose cap does not admit that sweep fails by its cap. -/
theorem RestsAt.run_of_lt {passes cap : Nat} (hrest : RestsAt eqs schedule passes)
    (hcap : cap < passes) :
    run eqs schedule cap = .error (.iterationLimit cap schedule.length) := by
  rw [run_eq_error_iff]
  refine ⟨rfl, ?_⟩
  intro j hj
  exact hrest.busy (j + 1) (by omega) (by omega)

end RoundRobin

namespace Solver

variable {g : FlowGraph} {eqs : Equations α n} {schedule : Schedule n} {passes cap : Nat}

/-- Apart from the visits, either strategy answers what the round-robin run finds. -/
theorem solve_map_eq (hg : g.EdgesAgree) (hp : ∀ b ∈ g.blocks, ∀ p ∈ g.predecessors b, p < n)
    (h : g.schedule n = .ok schedule) (eqs : Equations α n) (strategy : Strategy) (cap : Nat) :
    (solve ⟨strategy, cap⟩ g eqs).map (fun solution ↦ (solution.out, solution.iterations)) =
      (RoundRobin.run eqs schedule cap).map fun run ↦ (run.1.out, run.2) := by
  cases strategy with
  | roundRobin =>
    rw [solve_roundRobin h]
    cases RoundRobin.run eqs schedule cap <;> rfl
  | worklist =>
    have hrows : ∀ v ∈ schedule, ∀ p ∈ v.predecessors, p < n :=
      fun v hv ↦ g.predecessors_lt hp h hv
    rw [solve_worklist h]
    cases hw : Worklist.run eqs schedule cap with
    | error error =>
      rw [Worklist.run_error_matches (hg.linked h) hrows hw]
      rfl
    | ok run =>
      obtain ⟨r, hr, hmatch⟩ := Worklist.run_matches (hg.linked h) hw
      rw [hr]
      simp only [Except.map, hmatch.out_eq]

/-- A solver of either strategy whose cap admits the first sweep that changes nothing finds the
sets after it. -/
theorem solve_of_le (hg : g.EdgesAgree) (hp : ∀ b ∈ g.blocks, ∀ p ∈ g.predecessors b, p < n)
    (h : g.schedule n = .ok schedule) (hrest : RoundRobin.RestsAt eqs schedule passes)
    (strategy : Strategy) (hcap : passes ≤ cap) :
    ∃ solution, solve ⟨strategy, cap⟩ g eqs = .ok solution ∧ solution.iterations = passes ∧
      solution.out = (RoundRobin.after eqs schedule passes).out := by
  have hanswer := solve_map_eq hg hp h eqs strategy cap
  rw [hrest.run_of_le hcap] at hanswer
  obtain ⟨solution, hsolution, hparts⟩ := map_eq_ok_iff.mp hanswer
  obtain ⟨hout, hcount⟩ := Prod.mk.inj hparts
  exact ⟨solution, hsolution, hcount, hout⟩

/-- A solver of either strategy whose cap does not admit that sweep fails by its cap. -/
theorem solve_of_lt (hg : g.EdgesAgree) (hp : ∀ b ∈ g.blocks, ∀ p ∈ g.predecessors b, p < n)
    (h : g.schedule n = .ok schedule) (hrest : RoundRobin.RestsAt eqs schedule passes)
    (strategy : Strategy) (hcap : cap < passes) :
    solve ⟨strategy, cap⟩ g eqs = .error (.iterationLimit cap g.blocks.length) := by
  have hanswer := solve_map_eq hg hp h eqs strategy cap
  rw [hrest.run_of_lt hcap, FlowGraph.length_schedule h] at hanswer
  exact map_eq_error_iff.mp hanswer

/-- Where every block that is needed has a row and the edge lists agree, one number of sweeps
decides for both strategies and every cap: a cap that is not smaller gives a solution after exactly
so many sweeps and always the same sets, and a smaller one is exceeded. The sweep of that number
changes nothing under either strategy, so the sweeps would end without a cap. -/
theorem cap_is_threshold (g : FlowGraph) (eqs : Equations α n) (hcovered : g.Covered n)
    (hg : g.EdgesAgree) (hp : ∀ b ∈ g.blocks, ∀ p ∈ g.predecessors b, p < n) :
    ∃ passes out, 1 ≤ passes ∧
      (∀ strategy cap,
        (passes ≤ cap → ∃ solution, solve ⟨strategy, cap⟩ g eqs = .ok solution ∧
          solution.iterations = passes ∧ solution.out = out) ∧
        (cap < passes →
          solve ⟨strategy, cap⟩ g eqs = .error (.iterationLimit cap g.blocks.length))) ∧
      ∃ schedule, g.schedule n = .ok schedule ∧
        (RoundRobin.after eqs schedule passes).changed = false ∧
        ∃ w, Worklist.after eqs schedule passes = .ok w ∧ w.changed = false := by
  obtain ⟨schedule, h⟩ := hcovered.exists_schedule
  obtain ⟨passes, hrest⟩ := RoundRobin.exists_restsAt eqs h
  have hrows : ∀ v ∈ schedule, ∀ p ∈ v.predecessors, p < n := fun v hv ↦ g.predecessors_lt hp h hv
  obtain ⟨w, hw⟩ := Worklist.exists_after eqs hrows passes
  have hquiet : w.changed = false := by
    rw [(Worklist.matches_after (hg.linked h) hw).changed_eq]
    exact hrest.quiet
  refine ⟨passes, (RoundRobin.after eqs schedule passes).out, hrest.pos, ?_,
    schedule, h, hrest.quiet, w, hw, hquiet⟩
  intro strategy cap
  exact ⟨solve_of_le hg hp h hrest strategy, solve_of_lt hg hp h hrest strategy⟩

/-- Two sweeps decide for the tangle. -/
theorem tangle_threshold :
    tangle.Covered 2 ∧ tangle.EdgesAgree ∧
    (∀ b ∈ tangle.blocks, ∀ p ∈ tangle.predecessors b, p < 2) ∧
    ∃ out, ∀ strategy cap,
      (2 ≤ cap → ∃ solution, solve ⟨strategy, cap⟩ tangle tangleEquations = .ok solution ∧
        solution.iterations = 2 ∧ solution.out = out) ∧
      (cap < 2 →
        solve ⟨strategy, cap⟩ tangle tangleEquations = .error (.iterationLimit cap 3)) := by
  have hcovered : tangle.Covered 2 := by
    unfold FlowGraph.Covered
    decide
  have hrows : ∀ b ∈ tangle.blocks, ∀ p ∈ tangle.predecessors b, p < 2 := by decide
  obtain ⟨passes, out, -, hcaps, -⟩ :=
    cap_is_threshold tangle tangleEquations hcovered tangle_edgesAgree hrows
  have hsolved : (solve ⟨.roundRobin, 2⟩ tangle tangleEquations).toOption.map Solution.iterations =
      some 2 := by decide +kernel
  have hle : passes ≤ 2 := by
    by_contra hlt
    rw [(hcaps .roundRobin 2).2 (by omega)] at hsolved
    cases hsolved
  obtain ⟨solution, hsolution, rfl, -⟩ := (hcaps .roundRobin 2).1 hle
  have hpasses : solution.iterations = 2 := by
    rw [hsolution] at hsolved
    exact Option.some.inj hsolved
  rw [hpasses] at hcaps
  exact ⟨hcovered, tangle_edgesAgree, hrows, out, hcaps⟩

end Solver

end BlockFlow
