import BlockFlow.Proofs.Solver.InPlace
import BlockFlow.Proofs.Solver.Threshold
import Mathlib.Data.List.Chain
import Mathlib.Order.Lattice.Nat

/-!
# How many sweeps are needed

A fact reaches a block along a path from where it is generated. One sweep, which goes against the
order of enumeration, carries it back over all edges that lead forward in that order; an edge that
leads back to a block enumerated earlier costs one sweep more. A fact that arrives at all arrives
along a path that repeats no block, so the number of sweeps is bounded by the largest number of
such retreating edges on a path without repetition, plus one sweep for the facts that are generated
next to where they arrive and one that confirms.

Main statement: this bound, the bound by the number of blocks that it gives, and a family of rings
that need as many sweeps as that.
-/

namespace BlockFlow

variable {α : Type} [FactOrder α] {n : Nat}

/-! ### Retreating edges -/

namespace FlowGraph

variable {g : FlowGraph}

/-- The number of edges of a path that lead to a block enumerated earlier. -/
def retreats (g : FlowGraph) : List BlockId → Nat
  | b :: c :: rest => (if g.Before c b then 1 else 0) + g.retreats (c :: rest)
  | _ => 0

/-- A path along edges through enumerated blocks, none of them twice. -/
structure SimplePath (g : FlowGraph) (path : List BlockId) : Prop where
  listed : ∀ b ∈ path, b ∈ g.blocks
  chain : path.IsChain fun b s ↦ s ∈ g.successors b
  nodup : path.Nodup

/-- The largest number of retreating edges on a simple path. -/
noncomputable def depth (g : FlowGraph) : Nat :=
  sSup {k | ∃ path, g.SimplePath path ∧ g.retreats path = k}

/-- At most every edge of a path retreats. -/
theorem retreats_le (g : FlowGraph) (path : List BlockId) :
    g.retreats path ≤ path.length - 1 := by
  fun_induction retreats g path with
  | case1 b c rest ih =>
    simp only [List.length_cons] at ih ⊢
    split <;> omega
  | case2 path h => exact Nat.zero_le _

/-- A simple path is not longer than the enumeration. -/
theorem SimplePath.length_le {path : List BlockId} (h : g.SimplePath path) :
    path.length ≤ g.blocks.length :=
  (h.nodup.subperm h.listed).length_le

/-- The depth is the largest number of retreating edges on a simple path. -/
theorem isGreatest_depth (g : FlowGraph) :
    IsGreatest {k | ∃ path, g.SimplePath path ∧ g.retreats path = k} g.depth := by
  have hbounded : BddAbove {k | ∃ path, g.SimplePath path ∧ g.retreats path = k} := by
    refine ⟨g.blocks.length, ?_⟩
    rintro k ⟨path, hpath, rfl⟩
    have hretreats := g.retreats_le path
    have hlength := hpath.length_le
    omega
  have hsome : {k | ∃ path, g.SimplePath path ∧ g.retreats path = k}.Nonempty :=
    ⟨0, [], ⟨by simp, .nil, .nil⟩, rfl⟩
  exact ⟨Nat.sSup_mem hsome hbounded, fun k hk ↦ le_csSup hbounded hk⟩

/-- Every edge between enumerated blocks leads forward. -/
def AllForward (g : FlowGraph) : Prop :=
  ∀ b ∈ g.blocks, ∀ s ∈ g.successors b, s ∈ g.blocks → g.Before b s

/-- Where all edges lead forward, no path has a retreating edge. -/
theorem AllForward.retreats_eq (hg : g.AllForward) {path : List BlockId}
    (h : g.SimplePath path) : g.retreats path = 0 := by
  obtain ⟨hlisted, hchain, -⟩ := h
  induction path using List.twoStepInduction with
  | nil => rfl
  | singleton b => rfl
  | cons_cons b c rest _ ih =>
    rw [List.isChain_cons_cons] at hchain
    have hforward : g.Before b c := hg b (by simp_all) c hchain.1 (by simp_all)
    rw [retreats, if_neg hforward.asymm, ih c (fun d hd ↦ hlisted d (by simp [hd])) hchain.2]

/-! ### Facts on their way -/

/-- The fact reaches the first block of the path along the path: it is generated by a successor of
the last block, and no block after the first one kills it. -/
inductive Carries (g : FlowGraph) (eqs : Equations α n) (f : α) : List BlockId → Prop
  | last {b : BlockId} (hb : b ∈ g.blocks) (s : Fin n) (hs : ↑s ∈ g.successors b)
    (hf : f ∈ (eqs.get s).gen) : Carries g eqs f [b]
  | step {b : BlockId} (hb : b ∈ g.blocks) (s : Fin n) (hs : ↑s ∈ g.successors b)
    (hf : f ∉ (eqs.get s).kill) {rest : List BlockId} (h : Carries g eqs f (↑s :: rest)) :
    Carries g eqs f (b :: ↑s :: rest)

variable {eqs : Equations α n} {f : α}

/-- A path that carries a fact leads along edges through enumerated blocks. -/
theorem Carries.isChain {path : List BlockId} (h : g.Carries eqs f path) :
    (∀ b ∈ path, b ∈ g.blocks) ∧ path.IsChain fun b s ↦ s ∈ g.successors b := by
  induction h with
  | last hb s hs hf => simp [hb]
  | step hb s hs hf h ih =>
    rw [List.isChain_cons_cons]
    exact ⟨List.forall_mem_cons.mpr ⟨hb, ih.1⟩, hs, ih.2⟩

/-- What a path carries is carried from each of its blocks on. -/
theorem Carries.suffix {pre rest : List BlockId} {b : BlockId}
    (h : g.Carries eqs f (pre ++ b :: rest)) : g.Carries eqs f (b :: rest) := by
  induction pre with
  | nil => exact h
  | cons c pre ih =>
    generalize hpath : c :: pre ++ b :: rest = path at h
    cases h with
    | last => simp at hpath
    | step hb s hs hf h =>
      rw [List.cons_append, List.cons.injEq] at hpath
      exact ih (hpath.2 ▸ h)

/-- Some simple path from the block carries the fact. -/
def Arrives (g : FlowGraph) (eqs : Equations α n) (f : α) (b : BlockId) : Prop :=
  ∃ rest, g.Carries eqs f (b :: rest) ∧ (b :: rest).Nodup

/-- A fact that arrives at a successor which does not kill it arrives at the block; where the path
comes back to the block, the way around is cut off. -/
theorem Arrives.step {b : BlockId} (hb : b ∈ g.blocks) (s : Fin n) (hs : ↑s ∈ g.successors b)
    (hf : f ∉ (eqs.get s).kill) (h : g.Arrives eqs f s) : g.Arrives eqs f b := by
  obtain ⟨rest, hcarries, hnodup⟩ := h
  by_cases hmem : b ∈ ↑s :: rest
  · obtain ⟨pre, post, hsplit⟩ := List.append_of_mem hmem
    rw [hsplit] at hcarries hnodup
    exact ⟨post, hcarries.suffix, (List.nodup_append.mp hnodup).2.1⟩
  · exact ⟨↑s :: rest, .step hb s hs hf hcarries, List.nodup_cons.mpr ⟨hmem, hnodup⟩⟩

end FlowGraph

namespace RoundRobin

open FlowGraph (Carries Arrives SimplePath)

variable {g : FlowGraph} {eqs : Equations α n} {schedule : Schedule n} {f : α}

/-- What a path carries has reached its first block after one sweep more than the path has
retreating edges. -/
theorem mem_after_of_carries (h : g.schedule n = .ok schedule) (hnodup : g.blocks.Nodup)
    {path : List BlockId} (hpath : g.Carries eqs f path) {b : Fin n} {rest : List BlockId}
    (hb : path = ↑b :: rest) : f ∈ (after eqs schedule (g.retreats path + 1)).out.get b := by
  induction hpath generalizing b rest with
  | last hlisted s hs hf =>
    obtain ⟨rfl, rfl⟩ := List.cons.inj hb
    rw [after, mem_sweep_iff eqs h hnodup _ hlisted]
    exact ⟨s, hs, Equation.mem_transfer.mpr (.inl hf)⟩
  | step hlisted s hs hf hrest ih =>
    obtain ⟨rfl, rfl⟩ := List.cons.inj hb
    have hreached := ih rfl
    rw [FlowGraph.retreats]
    split
    · next hback =>
      -- the set of a block enumerated earlier is read as the sweep before has left it
      rw [Nat.add_comm 1, after, mem_sweep_iff eqs h hnodup _ hlisted]
      refine ⟨s, hs, Equation.mem_transfer.mpr (.inr ⟨?_, hf⟩)⟩
      rw [if_neg hback.asymm]
      exact hreached
    · next hback =>
      rw [Nat.zero_add]
      rcases FlowGraph.before_or_eq hlisted hback with hforward | hsame
      · rw [after, mem_sweep_iff eqs h hnodup _ hlisted]
        refine ⟨s, hs, Equation.mem_transfer.mpr (.inr ⟨?_, hf⟩)⟩
        rw [if_pos hforward]
        exact hreached
      · obtain rfl : b = s := Fin.ext hsame
        exact hreached

/-- Whatever is held after any sweep arrives along a simple path. -/
theorem arrives_of_mem_after (h : g.schedule n = .ok schedule) (k : Nat) (b : Fin n)
    (hf : f ∈ (after eqs schedule k).out.get b) : g.Arrives eqs f b := by
  revert b
  apply after_keeps eqs schedule fun out ↦ ∀ b : Fin n, f ∈ out.get b → g.Arrives eqs f b
  · simp
  · intro out hout v hv b hf
    rw [get_replaceRow] at hf
    split at hf
    · next heq =>
      subst heq
      have hlisted := (FlowGraph.visit_of_mem_schedule h hv).1
      obtain ⟨s, hs, hentering⟩ := Visit.mem_demand.mp hf
      have hedge := (FlowGraph.mem_successors_iff h hv s).mp hs
      rcases Equation.mem_transfer.mp hentering with hgen | ⟨hlater, hkept⟩
      · exact ⟨[], .last hlisted s hedge hgen, by simp⟩
      · exact (hout s hlater).step hlisted s hedge hkept
    · exact hout b hf

/-- No fact is lost from one sweep to a later one. -/
theorem held_after_mono (h : g.schedule n = .ok schedule) {j k : Nat} (hjk : j ≤ k) :
    (after eqs schedule j).out.held ⊆ (after eqs schedule k).out.held := by
  induction hjk with
  | refl => exact Set.Subset.rfl
  | step _ ih => exact Set.Subset.trans ih (sweep_grows h (ascending_after h _)).1

/-- If no simple path needs more than `m` sweeps, the sweep after these changes nothing. -/
theorem RestsAt.le_of_retreats (h : g.schedule n = .ok schedule) (hnodup : g.blocks.Nodup)
    {passes : Nat} (hrest : RestsAt eqs schedule passes) (m : Nat)
    (hpaths : ∀ path, g.SimplePath path → path ≠ [] → g.retreats path + 1 ≤ m) :
    passes ≤ m + 1 := by
  by_contra hlate
  have hbusy := hrest.busy (m + 1) (by omega) (by omega)
  obtain ⟨-, ⟨b, f⟩, hnew, hold⟩ :=
    Set.ssubset_iff_exists.mp ((sweep_grows h (ascending_after h m)).2 hbusy)
  obtain ⟨rest, hcarries, hsimple⟩ := arrives_of_mem_after h (m + 1) b hnew
  obtain ⟨hlisted, hchain⟩ := hcarries.isChain
  have hsoon := hpaths _ ⟨hlisted, hchain, hsimple⟩ (by simp)
  exact hold (held_after_mono h hsoon (mem_after_of_carries h hnodup hcarries rfl))

/-- The depth bounds the sweeps. -/
theorem RestsAt.le_depth (h : g.schedule n = .ok schedule) (hnodup : g.blocks.Nodup)
    {passes : Nat} (hrest : RestsAt eqs schedule passes) : passes ≤ g.depth + 2 := by
  apply hrest.le_of_retreats h hnodup (g.depth + 1)
  intro path hpath _
  exact Nat.succ_le_succ (g.isGreatest_depth.2 ⟨path, hpath, rfl⟩)

/-- The number of blocks bounds the sweeps. -/
theorem RestsAt.le_length (h : g.schedule n = .ok schedule) (hnodup : g.blocks.Nodup)
    {passes : Nat} (hrest : RestsAt eqs schedule passes) : passes ≤ g.blocks.length + 1 := by
  apply hrest.le_of_retreats h hnodup g.blocks.length
  intro path hpath hne
  have hretreats := g.retreats_le path
  have hlength := hpath.length_le
  have hpos := List.length_pos_of_ne_nil hne
  omega

/-- Where all edges lead forward, two sweeps are enough. -/
theorem RestsAt.le_two (h : g.schedule n = .ok schedule) (hnodup : g.blocks.Nodup)
    {passes : Nat} (hrest : RestsAt eqs schedule passes) (hg : g.AllForward) : passes ≤ 2 := by
  apply hrest.le_of_retreats h hnodup 1
  intro path hpath _
  rw [hg.retreats_eq hpath]

end RoundRobin

/-! ### Rings -/

namespace ring

/-- The position before one in a ring; the last one comes before the first one. -/
def previous (size i : Nat) : Nat := if i = 0 then size - 1 else i - 1

/-- The position after one in a ring; the first one comes after the last one. -/
def following (size i : Nat) : Nat := if i = size - 1 then 0 else i + 1

theorem previous_lt {size i : Nat} (h : i < size) : previous size i < size := by
  unfold previous
  split <;> omega

theorem following_lt {size i : Nat} (h : i < size) : following size i < size := by
  unfold following
  split <;> omega

theorem following_previous {size i : Nat} (h : i < size) :
    following size (previous size i) = i := by
  unfold following previous
  split <;> split <;> omega

end ring

open ring (previous following)

/-- Blocks in a ring, each with an edge to the one enumerated before it and the first one with an
edge to the last one. -/
def ring (size : Nat) : FlowGraph where
  blocks := List.range size
  successors b := [previous size b]
  predecessors b := [following size b]

/-- The last block of a ring generates a fact, and no block kills any. -/
def ringEquations (size : Nat) (f : α) : Equations α size :=
  Vector.ofFn fun b ↦ { gen := if b.val = size - 1 then .ofList [f] else ∅ }

namespace ring

theorem mem_transfer_iff {size : Nat} {f : α} (b : Fin size) (out : FactSet α) :
    f ∈ ((ringEquations size f).get b).transfer out ↔ b.val = size - 1 ∨ f ∈ out := by
  have hrow : (ringEquations size f).get b =
      { gen := if b.val = size - 1 then .ofList [f] else ∅ } := Vector.getElem_ofFn b.isLt
  rw [hrow, Equation.mem_transfer]
  split
  · next h => simp [h]
  · next h => simp [h]

theorem covered (size : Nat) : (ring size).Covered size := by
  intro b hb
  have hlt : b < size := List.mem_range.mp hb
  refine ⟨hlt, ?_⟩
  intro s hs
  rw [List.mem_singleton.mp hs]
  exact previous_lt hlt

theorem edgesAgree (size : Nat) : (ring size).EdgesAgree := by
  intro b hb s hs
  rw [List.mem_singleton.mp hs]
  exact List.mem_singleton.mpr (following_previous (List.mem_range.mp hb)).symm

theorem predecessors_lt (size : Nat) :
    ∀ b ∈ (ring size).blocks, ∀ p ∈ (ring size).predecessors b, p < size := by
  intro b hb p hp
  rw [List.mem_singleton.mp hp]
  exact following_lt (List.mem_range.mp hb)

/-- The blocks of a ring are enumerated in ascending order. -/
theorem before_iff {size b c : Nat} (hb : b < size) (hc : c < size) :
    (ring size).Before b c ↔ b < c := by
  have hidx {i : Nat} (hi : i < size) : (List.range size).idxOf i = i := by
    have hget := List.nodup_range.idxOf_getElem i (Nat.lt_of_lt_of_eq hi List.length_range.symm)
    rwa [List.getElem_range] at hget
  rw [FlowGraph.Before, ring, hidx hb, hidx hc]

/-- Each sweep takes the fact to one more block. -/
theorem mem_after_iff {size : Nat} {f : α} {schedule : Schedule size}
    (h : (ring size).schedule size = .ok schedule) (k : Nat) (b : Fin size) :
    f ∈ (RoundRobin.after (ringEquations size f) schedule k).out.get b ↔ b.val < k := by
  induction k generalizing b with
  | zero => simp [RoundRobin.after, RoundRobin.start]
  | succ k ih =>
    have hlisted : ↑b ∈ (ring size).blocks := List.mem_range.mpr b.isLt
    have hedge (s : Fin size) : ↑s ∈ (ring size).successors b ↔ s.val = previous size b :=
      List.mem_singleton
    rw [RoundRobin.after, RoundRobin.mem_sweep_iff _ h List.nodup_range _ hlisted]
    simp only [mem_transfer_iff, hedge]
    constructor
    · rintro ⟨s, hs, hf⟩
      have hlt := b.isLt
      rw [previous] at hs
      split at hs
      · omega
      · rw [if_neg (by rw [before_iff b.isLt s.isLt]; omega), ih s] at hf
        omega
    · intro hk
      refine ⟨⟨previous size b, previous_lt b.isLt⟩, rfl, ?_⟩
      by_cases hb : b.val = 0
      · exact .inl (if_pos hb)
      · have hprevious : previous size b = b.val - 1 := if_neg hb
        right
        rw [if_neg (by rw [before_iff b.isLt (previous_lt b.isLt)]; omega), ih]
        dsimp only
        omega

/-- A ring needs one sweep more than it has blocks. -/
theorem restsAt_eq {size : Nat} {f : α} {schedule : Schedule size}
    (h : (ring size).schedule size = .ok schedule) {passes : Nat}
    (hrest : RoundRobin.RestsAt (ringEquations size f) schedule passes) : passes = size + 1 := by
  have hupper : passes ≤ (List.range size).length + 1 := hrest.le_length h List.nodup_range
  rw [List.length_range] at hupper
  apply Nat.le_antisymm hupper
  by_contra hearly
  -- the sweep that is said to change nothing takes the fact to a block
  have hpos := hrest.pos
  obtain ⟨k, rfl⟩ : ∃ k, passes = k + 1 := ⟨passes - 1, by omega⟩
  obtain ⟨hsame, -⟩ := RoundRobin.sweep_at_rest _ _ _ hrest.quiet
  have hnew := (mem_after_iff h (k + 1) ⟨k, by omega⟩ (f := f)).mpr (Nat.lt_succ_self k)
  rw [RoundRobin.after, hsame, mem_after_iff h] at hnew
  exact Nat.lt_irrefl k hnew

end ring

/-! ### Solvers -/

namespace Solver

variable {g : FlowGraph} {eqs : Equations α n} {schedule : Schedule n} {passes : Nat}

/-- The first sweep that changes nothing decides for every cap, under the worklist where it can
follow the edges back. -/
theorem solve_of_restsAt (h : g.schedule n = .ok schedule)
    (hrest : RoundRobin.RestsAt eqs schedule passes) {strategy : Strategy}
    (hlinks : strategy = .worklist →
      g.EdgesAgree ∧ ∀ b ∈ g.blocks, ∀ p ∈ g.predecessors b, p < n) (cap : Nat) :
    (passes ≤ cap → ∃ solution, solve ⟨strategy, cap⟩ g eqs = .ok solution ∧
      solution.iterations = passes) ∧
    (cap < passes →
      solve ⟨strategy, cap⟩ g eqs = .error (.iterationLimit cap g.blocks.length)) := by
  cases strategy with
  | roundRobin =>
    rw [solve_roundRobin h]
    constructor
    · intro hcap
      rw [hrest.run_of_le hcap]
      exact ⟨_, rfl, rfl⟩
    · intro hcap
      rw [hrest.run_of_lt hcap, FlowGraph.length_schedule h]
      rfl
  | worklist =>
    obtain ⟨hg, hp⟩ := hlinks rfl
    refine ⟨?_, solve_of_lt hg hp h hrest .worklist⟩
    intro hcap
    obtain ⟨solution, hsolution, hcount, -⟩ := solve_of_le hg hp h hrest .worklist hcap
    exact ⟨solution, hsolution, hcount⟩

/-- Where blocks are enumerated once and have rows, and, under the worklist, edges are mirrored,
the number of sweeps exceeds the depth of the graph by two at most and the number of its blocks by
one at most, so a cap of that size is never reached; and two sweeps are enough if all edges lead
forward. The rings need as many sweeps as the number of blocks allows. -/
theorem sweeps_bounded (g : FlowGraph) (eqs : Equations α n) (hnodup : g.blocks.Nodup)
    (hcovered : g.Covered n) (strategy : Strategy)
    (hlinks : strategy = .worklist →
      g.EdgesAgree ∧ ∀ b ∈ g.blocks, ∀ p ∈ g.predecessors b, p < n) :
    (∃ passes, passes ≤ g.depth + 2 ∧ passes ≤ g.blocks.length + 1 ∧
      (g.AllForward → passes ≤ 2) ∧
      ∀ cap,
        (passes ≤ cap → ∃ solution, solve ⟨strategy, cap⟩ g eqs = .ok solution ∧
          solution.iterations = passes) ∧
        (cap < passes →
          solve ⟨strategy, cap⟩ g eqs = .error (.iterationLimit cap g.blocks.length))) ∧
    ∀ (size : Nat) (f : α) (strategy : Strategy) (cap : Nat), size + 1 ≤ cap →
      ∃ solution, solve ⟨strategy, cap⟩ (ring size) (ringEquations size f) = .ok solution ∧
        solution.iterations = size + 1 := by
  constructor
  · obtain ⟨schedule, h⟩ := hcovered.exists_schedule
    obtain ⟨passes, hrest⟩ := RoundRobin.exists_restsAt eqs h
    exact ⟨passes, hrest.le_depth h hnodup, hrest.le_length h hnodup, hrest.le_two h hnodup,
      solve_of_restsAt h hrest hlinks⟩
  · intro size f strategy cap hcap
    obtain ⟨schedule, h⟩ := (ring.covered size).exists_schedule
    obtain ⟨passes, hrest⟩ := RoundRobin.exists_restsAt (ringEquations size f) h
    obtain rfl := ring.restsAt_eq h hrest
    exact (solve_of_restsAt h hrest
      (fun _ ↦ ⟨ring.edgesAgree size, ring.predecessors_lt size⟩) cap).1 hcap

/-- The blocks of the tangle, enumerated once each, need three sweeps at most. -/
theorem tangle_sweeps_bounded :
    [1, 0].Nodup ∧ FlowGraph.Covered { tangle with blocks := [1, 0] } 2 ∧
    FlowGraph.EdgesAgree { tangle with blocks := [1, 0] } ∧
    ∃ solution,
      solve ⟨.worklist, 3⟩ { tangle with blocks := [1, 0] } tangleEquations = .ok solution ∧
      solution.iterations ≤ 3 ∧
      solution.iterations ≤ FlowGraph.depth { tangle with blocks := [1, 0] } + 2 := by
  have hcovered : FlowGraph.Covered { tangle with blocks := [1, 0] } 2 := by
    unfold FlowGraph.Covered
    decide
  have hedges : FlowGraph.EdgesAgree { tangle with blocks := [1, 0] } := by
    unfold FlowGraph.EdgesAgree
    decide
  obtain ⟨⟨passes, hdepth, hlength, -, hcaps⟩, -⟩ :=
    sweeps_bounded { tangle with blocks := [1, 0] } tangleEquations (by decide) hcovered .worklist
      fun _ ↦ ⟨hedges, by decide⟩
  obtain ⟨solution, hsolution, rfl⟩ := (hcaps 3).1 hlength
  exact ⟨by decide, hcovered, hedges, solution, hsolution, hlength, hdepth⟩

end Solver

end BlockFlow
