import BlockFlow.Proofs.Solver.Simulation
import Mathlib.Data.Set.Basic

/-!
# Least solutions

Over a graph the equations ask of a family of sets `X`, one for each row, that

`X b = ⋃ s ∈ successors b, GEN s ∪ (X s \ KILL s)`

for every enumerated block `b`. A loop admits many such families. What a solver finds is below every
family that satisfies the equations, and even below every family that is only large enough; so it
is determined by which blocks are enumerated and which successors they have, in whatever order and
however often they are listed. It is also determined fact by fact: where a fact is found depends on
where it is generated and killed, and not on what becomes of other facts.
-/

namespace BlockFlow

variable {α : Type} [FactOrder α] {n : Nat}

/-- The facts at the start of a block whose end sees a set, finite or not. -/
def Equation.enters (e : Equation α) (X : Set α) : Set α := {f | f ∈ e.gen ∨ f ∈ X ∧ f ∉ e.kill}

/-- The rows of a vector of fact sets as a family of sets. -/
def FactSets.members (out : FactSets α n) (b : Fin n) : Set α := {f | f ∈ out.get b}

namespace FlowGraph

variable (g : FlowGraph) (eqs : Equations α n)

/-- What the successors of a block demand of its end under a family of sets. -/
def demands (X : Fin n → Set α) (b : Fin n) : Set α :=
  {f | ∃ s : Fin n, ↑s ∈ g.successors b ∧ f ∈ (eqs.get s).enters (X s)}

/-- The family satisfies the equation of every enumerated block. -/
def Satisfies (X : Fin n → Set α) : Prop :=
  ∀ b : Fin n, ↑b ∈ g.blocks → X b = g.demands eqs X b

/-- The family holds at least what the equation of every enumerated block asks for. -/
def Closed (X : Fin n → Set α) : Prop :=
  ∀ b : Fin n, ↑b ∈ g.blocks → g.demands eqs X b ⊆ X b

/-- The sets solve the equations, hold nothing at rows that are not enumerated and are contained
in every family that is large enough. -/
structure IsLeastSolution (out : FactSets α n) : Prop where
  unlisted : ∀ b : Fin n, ↑b ∉ g.blocks → out.get b = ∅
  satisfies : g.Satisfies eqs out.members
  least : ∀ X, g.Closed eqs X → ∀ b, out.members b ⊆ X b

variable {g eqs}

/-- A larger family demands more. -/
theorem demands_mono {X Y : Fin n → Set α} (h : ∀ b, X b ⊆ Y b) (b : Fin n) :
    g.demands eqs X b ⊆ g.demands eqs Y b := by
  rintro f ⟨s, hs, hgen | ⟨hf, hkill⟩⟩
  · exact ⟨s, hs, .inl hgen⟩
  · exact ⟨s, hs, .inr ⟨h s hf, hkill⟩⟩

/-- The demand that a visit computes is what the graph demands of its block. -/
theorem mem_demand_iff {schedule : Schedule n} (h : g.schedule n = .ok schedule) {v : Visit n}
    (hv : v ∈ schedule) (out : FactSets α n) (f : α) :
    f ∈ v.demand eqs out ↔ f ∈ g.demands eqs out.members v.block := by
  rw [Visit.mem_demand]
  constructor
  · rintro ⟨s, hs, hf⟩
    exact ⟨s, (mem_successors_iff h hv s).mp hs, Equation.mem_transfer.mp hf⟩
  · rintro ⟨s, hs, hf⟩
    exact ⟨s, (mem_successors_iff h hv s).mpr hs, Equation.mem_transfer.mpr hf⟩

/-- Where the sets of the scheduled blocks are what their successors demand, the equations hold. -/
theorem satisfies_of_settled {schedule : Schedule n} (h : g.schedule n = .ok schedule)
    {out : FactSets α n} (hsettled : ∀ v ∈ schedule, v.demand eqs out = out.get v.block) :
    g.Satisfies eqs out.members := by
  intro b hb
  obtain ⟨v, hv, hblock⟩ := exists_mem_schedule h hb
  obtain rfl : v.block = b := Fin.ext hblock
  ext f
  rw [← mem_demand_iff h hv, hsettled v hv]
  rfl

/-- Sets below a closed family stay below it where a demand is written. -/
theorem Closed.replaceRow {schedule : Schedule n} (h : g.schedule n = .ok schedule)
    {X : Fin n → Set α} (hX : g.Closed eqs X) {out : FactSets α n}
    (hbelow : ∀ b, out.members b ⊆ X b) {v : Visit n} (hv : v ∈ schedule) (b : Fin n) :
    FactSets.members (replaceRow out v.block (v.demand eqs out)) b ⊆ X b := by
  intro f hf
  rw [FactSets.members, Set.mem_ofPred_eq, get_replaceRow] at hf
  split at hf
  · next heq =>
    subst heq
    have hdemand := (mem_demand_iff h hv out f).mp hf
    exact hX v.block (visit_of_mem_schedule h hv).1 (demands_mono hbelow v.block hdemand)
  · exact hbelow b hf

/-- A round-robin run that comes to rest has found the least solution. -/
theorem isLeastSolution_of_run {schedule : Schedule n} (h : g.schedule n = .ok schedule)
    {cap count : Nat} {final : RoundRobin α n}
    (hrun : RoundRobin.run eqs schedule cap = .ok (final, count)) :
    g.IsLeastSolution eqs final.out := by
  obtain ⟨k, -, -, -, hfinal, hrest⟩ := RoundRobin.run_eq_ok_iff.mp hrun
  subst hfinal
  obtain ⟨hout, hsettled⟩ := RoundRobin.sweep_at_rest eqs schedule _ hrest
  rw [← hout] at hsettled
  refine ⟨?_, satisfies_of_settled h hsettled, ?_⟩
  · apply RoundRobin.after_keeps eqs schedule fun out ↦ ∀ b : Fin n, ↑b ∉ g.blocks → out.get b = ∅
    · simp
    · intro out hempty v hv b hb
      have hne : v.block ≠ b := fun heq ↦ hb (heq ▸ (visit_of_mem_schedule h hv).1)
      rw [get_replaceRow, if_neg hne]
      exact hempty b hb
  · intro X hX
    apply RoundRobin.after_keeps eqs schedule fun out ↦ ∀ b, out.members b ⊆ X b
    · intro b f hf
      simp [FactSets.members] at hf
    · exact fun out hbelow v hv ↦ hX.replaceRow h hbelow hv

/-- A least solution is closed. -/
theorem IsLeastSolution.closed {out : FactSets α n} (h : g.IsLeastSolution eqs out) :
    g.Closed eqs out.members :=
  fun b hb ↦ (h.satisfies b hb).symm.subset

/-- A fact in a least solution is also in that of a second problem, over the same blocks and
successors or more of them, in which it is generated where it was before and killed nowhere else.
What becomes of other facts does not matter. -/
theorem IsLeastSolution.mem_of_mem {g' : FlowGraph} {eqs' : Equations α n}
    {out out' : FactSets α n} (h : g.IsLeastSolution eqs out) (h' : g'.IsLeastSolution eqs' out')
    (hblocks : ∀ b ∈ g.blocks, b ∈ g'.blocks)
    (hsucc : ∀ b ∈ g.blocks, ∀ s ∈ g.successors b, s ∈ g'.successors b) {f : α}
    (hgen : ∀ b, f ∈ (eqs.get b).gen → f ∈ (eqs'.get b).gen)
    (hkill : ∀ b, f ∈ (eqs'.get b).kill → f ∈ (eqs.get b).kill) {b : Fin n}
    (hf : f ∈ out.get b) : f ∈ out'.get b := by
  -- the family that holds every other fact everywhere, and this one where the second solution does
  refine h.least (fun c ↦ {x | x = f → f ∈ out'.get c}) ?_ b hf rfl
  rintro c hc x ⟨s, hs, hx⟩ rfl
  refine h'.closed c (hblocks c hc) ⟨s, hsucc c hc s hs, ?_⟩
  rcases hx with hx | ⟨hx, hkept⟩
  · exact .inl (hgen s hx)
  · exact .inr ⟨hx rfl, fun hkilled ↦ hkept (hkill s hkilled)⟩

/-- Least solutions over graphs with the same blocks and successors are contained in each other. -/
theorem IsLeastSolution.subset {g' : FlowGraph} {out out' : FactSets α n}
    (h : g.IsLeastSolution eqs out) (h' : g'.IsLeastSolution eqs out')
    (hblocks : ∀ b ∈ g.blocks, b ∈ g'.blocks)
    (hsucc : ∀ b ∈ g.blocks, ∀ s ∈ g.successors b, s ∈ g'.successors b) (b : Fin n) :
    out.members b ⊆ out'.members b :=
  fun _ hf ↦ h.mem_of_mem h' hblocks hsucc (fun _ ↦ id) (fun _ ↦ id) hf

end FlowGraph

/-- Vectors of fact sets with the same members are equal. -/
theorem FactSets.ext_members {out out' : FactSets α n}
    (h : ∀ b, out.members b = out'.members b) : out = out' := by
  apply Vector.ext
  intro i hi
  apply Std.ExtTreeSet.ext_mem
  intro f
  exact Set.ext_iff.mp (h ⟨i, hi⟩) f

namespace Solver

/-- Whatever the strategy, a solution is the least one; the worklist needs edge lists that agree. -/
theorem isLeastSolution_of_solve {solver : Solver} {g : FlowGraph} {eqs : Equations α n}
    {solution : Solution α n} (h : solver.solve g eqs = .ok solution)
    (hg : solver.strategy = .worklist → g.EdgesAgree) :
    g.Covered n ∧ g.IsLeastSolution eqs solution.out := by
  obtain ⟨strategy, cap⟩ := solver
  cases hs : g.schedule n with
  | error error =>
    rw [solve_of_schedule_error hs] at h
    cases h
  | ok schedule =>
    refine ⟨FlowGraph.covered_of_schedule hs, ?_⟩
    cases strategy with
    | roundRobin =>
      rw [solve_roundRobin hs, map_eq_ok_iff] at h
      obtain ⟨run, hr, rfl⟩ := h
      exact FlowGraph.isLeastSolution_of_run hs hr
    | worklist =>
      rw [solve_worklist hs, map_eq_ok_iff] at h
      obtain ⟨run, hw, rfl⟩ := h
      obtain ⟨r, hr, hm⟩ := Worklist.run_matches ((hg rfl).linked hs) hw
      dsimp only
      rw [hm.out_eq]
      exact FlowGraph.isLeastSolution_of_run hs hr

/-- The sets that a solver finds: one for each row, empty at rows that are not enumerated, equal
at every enumerated block to what its successors demand, and contained in every family that holds
at least that. They are the same for every graph that enumerates the same blocks and gives them
the same successors, whatever the order and the repetitions. -/
theorem solve_least (solver : Solver) (g : FlowGraph) (eqs : Equations α n)
    (solution : Solution α n) (h : solver.solve g eqs = .ok solution)
    (hg : solver.strategy = .worklist → g.EdgesAgree) :
    solution.out.toList.length = n ∧ g.Covered n ∧
    (∀ b : Fin n, ↑b ∉ g.blocks → solution.out.get b = ∅) ∧
    g.Satisfies eqs solution.out.members ∧
    (∀ X, g.Closed eqs X → ∀ b, solution.out.members b ⊆ X b) ∧
    ∀ (solver' : Solver) (g' : FlowGraph) (solution' : Solution α n),
      solver'.solve g' eqs = .ok solution' → (solver'.strategy = .worklist → g'.EdgesAgree) →
      (∀ b, b ∈ g.blocks ↔ b ∈ g'.blocks) →
      (∀ b ∈ g.blocks, ∀ s, s ∈ g.successors b ↔ s ∈ g'.successors b) →
      solution'.out = solution.out := by
  obtain ⟨hcovered, hleast⟩ := isLeastSolution_of_solve h hg
  refine ⟨by simp, hcovered, hleast.unlisted, hleast.satisfies, hleast.least, ?_⟩
  intro solver' g' solution' h' hg' hblocks hsucc
  obtain ⟨-, hleast'⟩ := isLeastSolution_of_solve h' hg'
  apply FactSets.ext_members
  intro b
  apply Set.Subset.antisymm
  · refine hleast'.subset hleast (fun c hc ↦ (hblocks c).mpr hc) ?_ b
    exact fun c hc s hs ↦ (hsucc c ((hblocks c).mpr hc) s).mpr hs
  · exact hleast.subset hleast' (fun c hc ↦ (hblocks c).mp hc)
      (fun c hc s hs ↦ (hsucc c hc s).mp hs) b

/-- The worklist finds the least solution for the tangle, and round robin finds the same sets
when it goes through the blocks once each and backwards. -/
theorem tangle_least :
    tangle.EdgesAgree ∧ ∃ solution, solve ⟨.worklist, 5⟩ tangle tangleEquations = .ok solution ∧
      tangle.Satisfies tangleEquations solution.out.members ∧
      (∀ X, tangle.Closed tangleEquations X → ∀ b, solution.out.members b ⊆ X b) ∧
      ∃ solution', solve ⟨.roundRobin, 5⟩ { tangle with blocks := [1, 0] } tangleEquations =
        .ok solution' ∧ solution'.out = solution.out := by
  have hsolved : (solve ⟨.worklist, 5⟩ tangle tangleEquations).isOk = true := by decide +kernel
  have hsolved' : (solve ⟨.roundRobin, 5⟩ { tangle with blocks := [1, 0] } tangleEquations).isOk =
      true := by decide +kernel
  have hblocks (b : BlockId) : b ∈ tangle.blocks ↔ b ∈ [1, 0] := by
    simp [tangle, or_comm]
  obtain ⟨solution, h⟩ := exists_of_isOk hsolved
  obtain ⟨solution', h'⟩ := exists_of_isOk hsolved'
  obtain ⟨-, -, -, hsatisfies, hleast, hsame⟩ := solve_least ⟨.worklist, 5⟩ tangle
    tangleEquations solution h fun _ ↦ tangle_edgesAgree
  refine ⟨tangle_edgesAgree, solution, h, hsatisfies, hleast, solution', h', ?_⟩
  exact hsame ⟨.roundRobin, 5⟩ { tangle with blocks := [1, 0] } solution' h'
    (fun hstrategy ↦ nomatch hstrategy) hblocks fun _ _ _ ↦ Iff.rfl

/-- Solutions of two problems over tables of the same length, compared at one fact. If the second
graph has at least the enumerated blocks and the successors of the first one, and the second table
generates the fact wherever the first one does and kills it at most where the first one does, then
the fact is in every set of the second solution where it is in that of the first one. If the
graphs have the same enumerated blocks and successors and the tables generate and kill the fact at
the same blocks, the two solutions hold it at the same blocks, whatever else the tables say. -/
theorem fact_monotone (solver solver' : Solver) (g g' : FlowGraph) (eqs eqs' : Equations α n)
    (solution solution' : Solution α n) (h : solver.solve g eqs = .ok solution)
    (h' : solver'.solve g' eqs' = .ok solution')
    (hg : solver.strategy = .worklist → g.EdgesAgree)
    (hg' : solver'.strategy = .worklist → g'.EdgesAgree) (f : α) :
    ((∀ b ∈ g.blocks, b ∈ g'.blocks ∧ ∀ s ∈ g.successors b, s ∈ g'.successors b) →
      (∀ b, f ∈ (eqs.get b).gen → f ∈ (eqs'.get b).gen) →
      (∀ b, f ∈ (eqs'.get b).kill → f ∈ (eqs.get b).kill) →
      ∀ b, f ∈ solution.out.get b → f ∈ solution'.out.get b) ∧
    ((∀ b, b ∈ g.blocks ↔ b ∈ g'.blocks) →
      (∀ b ∈ g.blocks, ∀ s, s ∈ g.successors b ↔ s ∈ g'.successors b) →
      (∀ b, f ∈ (eqs.get b).gen ↔ f ∈ (eqs'.get b).gen) →
      (∀ b, f ∈ (eqs.get b).kill ↔ f ∈ (eqs'.get b).kill) →
      ∀ b, f ∈ solution.out.get b ↔ f ∈ solution'.out.get b) := by
  obtain ⟨-, hleast⟩ := isLeastSolution_of_solve h hg
  obtain ⟨-, hleast'⟩ := isLeastSolution_of_solve h' hg'
  constructor
  · intro hgraph hgen hkill b
    exact hleast.mem_of_mem hleast' (fun c hc ↦ (hgraph c hc).1) (fun c hc ↦ (hgraph c hc).2)
      hgen hkill
  · intro hblocks hsucc hgen hkill b
    constructor
    · exact hleast.mem_of_mem hleast' (fun c hc ↦ (hblocks c).mp hc)
        (fun c hc s hs ↦ (hsucc c hc s).mp hs) (fun c ↦ (hgen c).mp) fun c ↦ (hkill c).mpr
    · exact hleast'.mem_of_mem hleast (fun c hc ↦ (hblocks c).mpr hc)
        (fun c hc s hs ↦ (hsucc c ((hblocks c).mpr hc) s).mpr hs) (fun c ↦ (hgen c).mpr)
        fun c ↦ (hkill c).mp

/-- The tangle with fewer edges and each block enumerated once. -/
def strand : FlowGraph where
  blocks := [0, 1]
  successors b := if b = 0 then [1] else [0]
  predecessors b := if b = 0 then [1] else [0]

/-- The first block of the strand kills a fact that passes through the first block of the tangle,
and the second one generates a fact that the tangle does not know. -/
def strandEquations : Equations Nat 2 :=
  #v[{ kill := .ofList [2] }, { gen := .ofList [2, 9], kill := .ofList [7] }]

/-- As in the tangle, the second block generates one fact that nothing kills; the rest differs. -/
def otherEquations : Equations Nat 2 :=
  #v[{ gen := .ofList [8], kill := .ofList [7] }, { gen := .ofList [2] }]

/-- One fact followed from the strand to the tangle, and through the tangle under two tables. -/
theorem tangle_fact_monotone :
    strand.EdgesAgree ∧ tangle.EdgesAgree ∧
    ∃ s t u, solve ⟨.worklist, 4⟩ strand strandEquations = .ok s ∧
      solve ⟨.roundRobin, 5⟩ tangle tangleEquations = .ok t ∧
      solve ⟨.worklist, 9⟩ tangle otherEquations = .ok u ∧
      (∀ b, 2 ∈ s.out.get b → 2 ∈ t.out.get b) ∧ ∀ b, 2 ∈ t.out.get b ↔ 2 ∈ u.out.get b := by
  have hstrand : strand.EdgesAgree := by
    unfold FlowGraph.EdgesAgree
    decide
  have hs : (solve ⟨.worklist, 4⟩ strand strandEquations).isOk = true := by decide +kernel
  have ht : (solve ⟨.roundRobin, 5⟩ tangle tangleEquations).isOk = true := by decide +kernel
  have hu : (solve ⟨.worklist, 9⟩ tangle otherEquations).isOk = true := by decide +kernel
  obtain ⟨s, hs⟩ := exists_of_isOk hs
  obtain ⟨t, ht⟩ := exists_of_isOk ht
  obtain ⟨u, hu⟩ := exists_of_isOk hu
  refine ⟨hstrand, tangle_edgesAgree, s, t, u, hs, ht, hu, ?_, ?_⟩
  · exact (fact_monotone _ _ strand tangle _ _ s t hs ht (fun _ ↦ hstrand)
      (fun _ ↦ tangle_edgesAgree) 2).1 (by decide) (by decide +kernel) (by decide +kernel)
  · exact (fact_monotone _ _ tangle tangle _ _ t u ht hu (fun _ ↦ tangle_edgesAgree)
      (fun _ ↦ tangle_edgesAgree) 2).2 (fun _ ↦ Iff.rfl) (fun _ _ _ ↦ Iff.rfl)
      (by decide +kernel) (by decide +kernel)

end Solver

end BlockFlow
