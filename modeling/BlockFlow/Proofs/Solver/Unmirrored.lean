import BlockFlow.Proofs.Solver.Threshold

/-!
# Edge lists that disagree

Where the predecessor lists miss an edge, the worklist does not learn of a change and leaves a block
as it is, so the two strategies no longer go in step. What remains is this: the remembered facts are
always those of the present sets, and a set only ever changes to what the successors of its block
demand. Main statement: whatever the predecessor lists say, sets grow from sweep to sweep, and a
worklist run finds nothing that the round-robin run does not find.
-/

namespace BlockFlow

variable {α : Type} [FactOrder α] {n : Nat} {eqs : Equations α n} {schedule : Schedule n}

namespace Worklist

/-- What is kept where the set of a scheduled block is replaced by the demand of its successors is
kept by a sweep, which also keeps the remembered facts up to date. -/
theorem sweep_keeps (P : FactSets α n → Prop)
    (hstep : ∀ out, P out → ∀ v ∈ schedule, P (replaceRow out v.block (v.demand eqs out)))
    {w w' : Worklist α n} (hw : UpToDate eqs w) (hP : P w.out)
    (h : sweep eqs schedule w = .ok w') : UpToDate eqs w' ∧ P w'.out := by
  have hreset : UpToDate eqs { w with changed := false } ∧ P w.out := ⟨hw, hP⟩
  refine foldlM_keeps (fun w ↦ UpToDate eqs w ∧ P w.out) schedule ?_ hreset h
  rintro v hv w w' ⟨hw, hP⟩ hvisit
  have hturn : Turn eqs w v w' := turn_of_visit hvisit
  refine ⟨hw.turn hturn, ?_⟩
  rcases hw.turn_out_or hturn with hout | hout
  · rw [hout]
    exact hP
  · rw [hout]
    exact hstep w.out hP v hv

/-- What holds of empty sets and is kept where the set of a scheduled block is replaced by the
demand of its successors holds after every sweep. -/
theorem after_keeps (P : FactSets α n → Prop) (hstart : P (Vector.replicate n ∅))
    (hstep : ∀ out, P out → ∀ v ∈ schedule, P (replaceRow out v.block (v.demand eqs out)))
    {k : Nat} {w : Worklist α n} (h : after eqs schedule k = .ok w) :
    UpToDate eqs w ∧ P w.out := by
  induction k generalizing w with
  | zero =>
    cases h
    exact ⟨upToDate_start, hstart⟩
  | succ k ih =>
    obtain ⟨last, hlast, h⟩ := bind_eq_ok_iff.mp h
    obtain ⟨hup, hP⟩ := ih hlast
    exact sweep_keeps P hstep hup hP h

/-- A run ends in the state after as many sweeps as it counts. -/
theorem after_of_run {cap count : Nat} {w : Worklist α n}
    (h : run eqs schedule cap = .ok (w, count)) : after eqs schedule count = .ok w := by
  obtain ⟨k, -, rfl, -, hfinal, -⟩ := (sweepToRest_eq_ok_iff _ _ _ _ _ _ _ _).mp h
  rw [Nat.zero_add]
  exact hfinal

variable {g : FlowGraph}

/-- After every sweep the sets are below every family that is large enough. -/
theorem members_after_subset (hg : g.schedule n = .ok schedule) {X : Fin n → Set α}
    (hX : g.Closed eqs X) {k : Nat} {w : Worklist α n} (h : after eqs schedule k = .ok w)
    (b : Fin n) : w.out.members b ⊆ X b := by
  refine (after_keeps (fun out ↦ ∀ b, out.members b ⊆ X b) ?_ ?_ h).2 b
  · intro c f hf
    simp [FactSets.members] at hf
  · exact fun out hbelow v hv ↦ hX.replaceRow hg hbelow hv

/-- A sweep loses no fact. -/
theorem held_after_mono (hg : g.schedule n = .ok schedule) {k : Nat} {w w' : Worklist α n}
    (h : after eqs schedule k = .ok w) (h' : after eqs schedule (k + 1) = .ok w') :
    w.out.held ⊆ w'.out.held := by
  obtain ⟨hup, hascending⟩ := after_keeps (g.Ascending eqs)
    (fun c _ f hf ↦ by simp [FactSets.members] at hf) (fun out hout v hv ↦ hout.replaceRow hg hv) h
  obtain ⟨last, hlast, hsweep⟩ := bind_eq_ok_iff.mp h'
  obtain rfl : w = last := Except.ok.inj (h.symm.trans hlast)
  refine (sweep_keeps (fun out ↦ g.Ascending eqs out ∧ w.out.held ⊆ out.held) ?_ hup
    ⟨hascending, Set.Subset.rfl⟩ hsweep).2.2
  rintro out ⟨hout, hsubset⟩ v hv
  exact ⟨hout.replaceRow hg hv, Set.Subset.trans hsubset (hout.held_subset hg hv)⟩

end Worklist

namespace Solver

/-- Over any predecessor lists: where every block that is needed has a row, the sets of a worklist
run never shrink from one sweep to the next; and if the worklist finds a solution, which is then the
state after its last sweep, and round robin finds one too, each under a cap of its own, every set
of the first is contained in that of the second. -/
theorem unmirrored_only_loses (g : FlowGraph) (eqs : Equations α n) (hcovered : g.Covered n) :
    ∃ schedule, g.schedule n = .ok schedule ∧
    (∀ k before after, Worklist.after eqs schedule k = .ok before →
      Worklist.after eqs schedule (k + 1) = .ok after →
      ∀ b f, f ∈ before.out.get b → f ∈ after.out.get b) ∧
    ∀ cap cap' w r, solve ⟨.worklist, cap⟩ g eqs = .ok w →
      solve ⟨.roundRobin, cap'⟩ g eqs = .ok r →
      (∃ last, Worklist.after eqs schedule w.iterations = .ok last ∧ last.out = w.out) ∧
      ∀ b f, f ∈ w.out.get b → f ∈ r.out.get b := by
  obtain ⟨schedule, hg⟩ := hcovered.exists_schedule
  refine ⟨schedule, hg, ?_, ?_⟩
  · intro k before after hbefore hafter b f hf
    exact @Worklist.held_after_mono _ _ _ _ _ _ hg _ _ _ hbefore hafter (b, f) hf
  · intro cap cap' w r hw hr
    rw [solve_worklist hg, map_eq_ok_iff] at hw
    obtain ⟨⟨last, count⟩, hrun, rfl⟩ := hw
    have hlast := Worklist.after_of_run hrun
    obtain ⟨-, hleast⟩ := isLeastSolution_of_solve hr nofun
    refine ⟨⟨last, hlast, rfl⟩, ?_⟩
    intro b f hf
    exact Worklist.members_after_subset hg hleast.closed hlast b hf

/-- Three blocks in a row against the order of enumeration. None of the edges is among the
predecessors, which instead list twice an edge that is not there. -/
def severed : FlowGraph where
  blocks := [0, 1, 2]
  successors b := if b = 0 then [] else [b - 1]
  predecessors b := if b = 0 then [2, 2] else []

/-- A fact is generated where the row ends. -/
def severedEquations : Equations Nat 3 := #v[{ gen := .ofList [7] }, {}, {}]

/-- The worklist loses the fact on its way through the row, and gains none. -/
theorem severed_only_loses :
    severed.Covered 3 ∧ ¬severed.EdgesAgree ∧
    ∃ w r, solve ⟨.worklist, 4⟩ severed severedEquations = .ok w ∧
      solve ⟨.roundRobin, 9⟩ severed severedEquations = .ok r ∧
      (∀ b f, f ∈ w.out.get b → f ∈ r.out.get b) ∧ 7 ∈ r.out.get 2 ∧ 7 ∉ w.out.get 2 := by
  have hcovered : severed.Covered 3 := by
    unfold FlowGraph.Covered
    decide
  have hdisagree : ¬severed.EdgesAgree := by
    unfold FlowGraph.EdgesAgree
    decide
  have hfound : (solve ⟨.roundRobin, 9⟩ severed severedEquations).toOption.map
      (fun r ↦ decide (7 ∈ r.out.get 2)) = some true := by decide +kernel
  have hlost : (solve ⟨.worklist, 4⟩ severed severedEquations).toOption.map
      (fun w ↦ decide (7 ∈ w.out.get 2)) = some false := by decide +kernel
  have hw : (solve ⟨.worklist, 4⟩ severed severedEquations).isOk = true := by decide +kernel
  have hr : (solve ⟨.roundRobin, 9⟩ severed severedEquations).isOk = true := by decide +kernel
  obtain ⟨w, hw⟩ := exists_of_isOk hw
  obtain ⟨r, hr⟩ := exists_of_isOk hr
  rw [hw] at hlost
  rw [hr] at hfound
  obtain ⟨schedule, -, -, hsolved⟩ := unmirrored_only_loses severed severedEquations hcovered
  refine ⟨hcovered, hdisagree, w, r, hw, hr, (hsolved 4 9 w r hw hr).2, ?_, ?_⟩
  · simpa using Option.some.inj hfound
  · simpa using Option.some.inj hlost

end Solver

end BlockFlow
