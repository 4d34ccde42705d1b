import BlockFlow.Proofs.Solver.Simulation

/-!
# Solving by indices

A solver may keep no schedule and go by block numbers alone: it checks once that the enumerated
blocks and their successors have rows, and then uses the numbers as indices into its vectors; of
the predecessors, each is checked before its mark is set. Such a solver could use an index that is
out of bounds. Main statement: it never does, on any graph, and it answers as the solver that goes
by a schedule.
-/

namespace BlockFlow

/-- Why a run that goes by indices stops before it has a solution. -/
inductive Stop where
  /-- A vector has no entry at the index. -/
  | outOfBounds (index : Nat)
  /-- The run reports an error. -/
  | reported (error : SolveError)
  deriving DecidableEq, Repr

namespace Indexed

variable {α β : Type} [FactOrder α] {n : Nat}

/-- The entry of a vector at an index. -/
def entry (rows : Vector β n) (index : Nat) : Except Stop β :=
  if h : index < n then .ok (rows.get ⟨index, h⟩) else .error (.outOfBounds index)

/-- A vector with the entry at an index replaced. -/
def setEntry (rows : Vector β n) (index : Nat) (x : β) : Except Stop (Vector β n) :=
  if h : index < n then .ok (replaceRow rows ⟨index, h⟩ x) else .error (.outOfBounds index)

/-- Reports a block that has no row in a table of `n` rows. -/
def require (n : Nat) (block : BlockId) : Except Stop PUnit :=
  if block < n then .ok () else .error (.reported (.missingBlock block))

/-- The facts at the start of a block, which is reported if it has no row. -/
def entering (eqs : Equations α n) (block : BlockId) (out : FactSet α) :
    Except Stop (FactSet α) :=
  match eqs.transfer? block out with
  | some facts => .ok facts
  | none => .error (.reported (.missingBlock block))

/-- Requires a row for every enumerated block and, after it, for each of its successors. -/
def requireCovered (g : FlowGraph) (n : Nat) : Except Stop PUnit :=
  forM g.blocks fun block ↦ do
    require n block
    forM (g.successors block) (require n)

/-- The union of what is found for each successor of a block. -/
def gather (g : FlowGraph) (block : BlockId) (find : BlockId → Except Stop (FactSet α)) :
    Except Stop (FactSet α) :=
  (g.successors block).foldlM (fun facts s ↦ do return facts ∪ (← find s)) ∅

/-- Recomputes the set of one block. -/
def visitRoundRobin (g : FlowGraph) (eqs : Equations α n) (state : RoundRobin α n)
    (block : BlockId) : Except Stop (RoundRobin α n) := do
  let demand ← gather g block fun s ↦ do entering eqs s (← entry state.out s)
  let present ← entry state.out block
  if demand = present then return { state with visits := state.visits + 1 }
  else
    let out ← setEntry state.out block demand
    return { out, changed := true, visits := state.visits + 1 }

/-- Every set is empty at first and every block of the order is dirty. -/
def startWorklist (eqs : Equations α n) (order : List BlockId) : Except Stop (Worklist α n) := do
  let out : FactSets α n := Vector.replicate n ∅
  let liveIn ← Vector.ofFnM fun index : Fin n ↦ do entering eqs index (← entry out index)
  let dirty ← order.foldlM (fun dirty block ↦ setEntry dirty block true) (Vector.replicate n false)
  return { out, liveIn, dirty, changed := false, visits := 0 }

/-- Marks the listed blocks, each after requiring a row for it. -/
def mark (dirty : Vector Bool n) (blocks : List BlockId) : Except Stop (Vector Bool n) :=
  blocks.foldlM (fun dirty block ↦ do
    require n block
    setEntry dirty block true) dirty

/-- Recomputes the set of one block if it is dirty. -/
def visitWorklist (g : FlowGraph) (eqs : Equations α n) (state : Worklist α n)
    (block : BlockId) : Except Stop (Worklist α n) := do
  if ← entry state.dirty block then
    let dirty ← setEntry state.dirty block false
    let visits := state.visits + 1
    let demand ← gather g block (entry state.liveIn)
    let present ← entry state.out block
    if demand = present then return { state with dirty, visits }
    else
      let out ← setEntry state.out block demand
      let facts ← entering eqs block (← entry out block)
      let remembered ← entry state.liveIn block
      if facts = remembered then return { state with out, dirty, changed := true, visits }
      else
        let liveIn ← setEntry state.liveIn block facts
        let dirty ← mark dirty (g.predecessors block)
        return { out, liveIn, dirty, changed := true, visits }
  else return state

/-- The solver that goes by indices. -/
def solve (solver : Solver) (g : FlowGraph) (eqs : Equations α n) :
    Except Stop (Solution α n) := do
  requireCovered g n
  let order := g.blocks.reverse
  let exhausted := Stop.reported (.iterationLimit solver.maxPasses order.length)
  match solver.strategy with
  | .roundRobin =>
    let sweep (state : RoundRobin α n) :=
      order.foldlM (visitRoundRobin g eqs) { state with changed := false }
    let (final, iterations) ←
      sweepToRest sweep RoundRobin.changed exhausted solver.maxPasses 0 .start
    return { out := final.out, iterations, visits := final.visits, strategy := .roundRobin }
  | .worklist =>
    let sweep (state : Worklist α n) :=
      order.foldlM (visitWorklist g eqs) { state with changed := false }
    let (final, iterations) ←
      sweepToRest sweep Worklist.changed exhausted solver.maxPasses 0 (← startWorklist eqs order)
    return { out := final.out, iterations, visits := final.visits, strategy := .worklist }

/-! ### Indices that are rows -/

theorem entry_row (rows : Vector β n) (i : Fin n) : entry rows i = .ok (rows.get i) :=
  dif_pos i.isLt

theorem setEntry_row (rows : Vector β n) (i : Fin n) (x : β) :
    setEntry rows i x = .ok (replaceRow rows i x) :=
  dif_pos i.isLt

theorem entering_row (eqs : Equations α n) (i : Fin n) (out : FactSet α) :
    entering eqs i out = .ok ((eqs.get i).transfer out) := by
  have hrow : eqs.transfer? i out = some ((eqs.get i).transfer out) := by
    simp [Equations.transfer?, Vector.get]
  rw [entering, hrow]

/-- A required row is one that a look-up finds. -/
theorem require_eq (block : BlockId) :
    require n block = ((rowOf n block).map fun _ ↦ ()).mapError .reported := by
  unfold require rowOf
  split
  · rfl
  · rfl

/-- The check succeeds exactly where there is a schedule, and fails as making one does. -/
theorem requireCovered_eq (g : FlowGraph) :
    requireCovered g n = ((g.schedule n).map fun _ ↦ ()).mapError .reported := by
  have hvisit (block : BlockId) :
      (do require n block; forM (g.successors block) (require n)) =
        ((g.visit n block).map fun _ ↦ ()).mapError Stop.reported := by
    rw [require_eq, forM_mapError Stop.reported require_eq, FlowGraph.visit]
    cases rowOf n block with
    | error e => rfl
    | ok row => cases (g.successors block).mapM (rowOf n) <;> rfl
  rw [requireCovered, forM_mapError Stop.reported hvisit, FlowGraph.schedule]
  cases g.blocks.mapM (g.visit n) <;> rfl

private theorem foldlM_union {find : BlockId → Except Stop (FactSet α)}
    {facts : Fin n → FactSet α} (hfind : ∀ s : Fin n, find s = .ok (facts s))
    (rows : List (Fin n)) (known : FactSet α) :
    (rows.map Fin.val).foldlM (fun known s ↦ do return known ∪ (← find s)) known =
      .ok (known ∪ FactSet.join (rows.map facts)) := by
  induction rows generalizing known with
  | nil =>
    have hempty : known ∪ ∅ = known := by
      ext f
      simp [Std.ExtTreeSet.mem_union_iff]
    exact congrArg Except.ok hempty.symm
  | cons s rows ih =>
    have hjoin : known ∪ facts s ∪ FactSet.join (rows.map facts) =
        known ∪ FactSet.join ((s :: rows).map facts) := by
      ext f
      simp [Std.ExtTreeSet.mem_union_iff, or_assoc]
    rw [List.map_cons, List.foldlM_cons, hfind, ← hjoin, ← ih]
    rfl

/-- Gathering what is found for rows is their union. -/
theorem gather_eq {g : FlowGraph} {block : BlockId} {rows : List (Fin n)}
    (hrows : g.successors block = rows.map Fin.val) {find : BlockId → Except Stop (FactSet α)}
    {facts : Fin n → FactSet α} (hfind : ∀ s : Fin n, find s = .ok (facts s)) :
    gather g block find = .ok (FactSet.join (rows.map facts)) := by
  have hempty : ∅ ∪ FactSet.join (rows.map facts) = FactSet.join (rows.map facts) := by
    ext f
    simp [Std.ExtTreeSet.mem_union_iff]
  rw [gather, hrows, foldlM_union hfind, hempty]

/-- Marking by indices is marking by rows. -/
theorem mark_eq (dirty : Vector Bool n) (blocks : List BlockId) :
    mark dirty blocks = (Worklist.mark dirty blocks).mapError .reported := by
  have hstep (dirty : Vector Bool n) (block : BlockId) :
      (do require n block; setEntry dirty block true) =
        (do let row ← rowOf n block; return replaceRow dirty row true :
          Except SolveError (Vector Bool n)).mapError Stop.reported := by
    unfold require rowOf setEntry
    split
    · rfl
    · rfl
  conv_lhs => rw [mark, ← List.map_id blocks]
  exact foldlM_mapError Stop.reported blocks (fun block _ dirty ↦ hstep dirty block) dirty

/-! ### Visits, sweeps and runs -/

section Visits

variable {g : FlowGraph} {schedule : Schedule n} (hg : g.schedule n = .ok schedule)
  (eqs : Equations α n)

include hg

/-- A visit by indices of a scheduled block is the visit. -/
theorem visitRoundRobin_eq {v : Visit n} (hv : v ∈ schedule) (state : RoundRobin α n) :
    visitRoundRobin g eqs state v.block = .ok (RoundRobin.visit eqs state v) := by
  obtain ⟨-, hvisit⟩ := FlowGraph.visit_of_mem_schedule hg hv
  obtain ⟨-, hsucc, -⟩ := FlowGraph.visit_eq_ok_iff.mp hvisit
  have hdemand : gather g v.block (fun s ↦ do entering eqs s (← entry state.out s)) =
      .ok (v.demand eqs state.out) := by
    apply gather_eq hsucc
    intro s
    rw [entry_row]
    exact entering_row eqs s _
  simp only [visitRoundRobin, hdemand, entry_row, setEntry_row, ok_bind]
  dsimp only [RoundRobin.visit]
  split
  · rfl
  · rfl

/-- A turn by indices of a scheduled block is its turn, and fails as the turn does. -/
theorem visitWorklist_eq {v : Visit n} (hv : v ∈ schedule) (state : Worklist α n) :
    visitWorklist g eqs state v.block = (Worklist.visit eqs state v).mapError .reported := by
  obtain ⟨-, hvisit⟩ := FlowGraph.visit_of_mem_schedule hg hv
  obtain ⟨-, hsucc, -⟩ := FlowGraph.visit_eq_ok_iff.mp hvisit
  have hdemand : gather g v.block (entry state.liveIn) =
      .ok (FactSet.join (v.successors.map fun s ↦ state.liveIn.get s)) :=
    gather_eq hsucc (entry_row state.liveIn)
  simp only [visitWorklist, hdemand, entry_row, setEntry_row, entering_row, get_replaceRow, if_true,
    mark_eq, ok_bind, ← FlowGraph.predecessors_eq hg hv]
  dsimp only [Worklist.visit]
  split
  · split
    · rfl
    · split
      · rfl
      · cases Worklist.mark (replaceRow state.dirty v.block false) v.predecessors <;> rfl
  · rfl

/-- Going through the blocks by indices is going through the schedule, and fails as that does. -/
theorem foldlM_order {σ : Type} (step : σ → Visit n → Except SolveError σ)
    {stepAt : σ → BlockId → Except Stop σ}
    (h : ∀ v ∈ schedule, ∀ state, stepAt state v.block = (step state v).mapError .reported)
    (state : σ) :
    g.blocks.reverse.foldlM stepAt state = (schedule.foldlM step state).mapError .reported := by
  rw [← FlowGraph.map_block_schedule hg]
  exact foldlM_mapError Stop.reported schedule h state

/-- A round-robin sweep by indices is the sweep. -/
theorem sweepRoundRobin_eq (state : RoundRobin α n) :
    g.blocks.reverse.foldlM (visitRoundRobin g eqs) { state with changed := false } =
      (Except.ok (RoundRobin.sweep eqs schedule state)).mapError .reported := by
  rw [foldlM_order hg (fun state v ↦ pure (RoundRobin.visit eqs state v))
    fun v hv state ↦ visitRoundRobin_eq hg eqs hv state, List.foldlM_pure]
  rfl

/-- A worklist sweep by indices is the sweep, and fails as the sweep does. -/
theorem sweepWorklist_eq (state : Worklist α n) :
    g.blocks.reverse.foldlM (visitWorklist g eqs) { state with changed := false } =
      (Worklist.sweep eqs schedule state).mapError .reported :=
  foldlM_order hg _ (fun _ hv state ↦ visitWorklist_eq hg eqs hv state) _

/-- The first state of a worklist run, found by indices. -/
theorem startWorklist_eq :
    startWorklist eqs g.blocks.reverse = .ok (Worklist.start eqs schedule) := by
  have hrow : (fun i : Fin n ↦ do entering eqs i (← entry (Vector.replicate n ∅) i)) =
      fun i ↦ pure ((eqs.get i).transfer ∅) := by
    funext i
    rw [entry_row, ok_bind, entering_row, get_replicate]
    rfl
  have hliveIn : Vector.ofFn (fun i : Fin n ↦ (eqs.get i).transfer ∅) =
      eqs.map (·.transfer ∅) := by
    apply Vector.ext
    intro i hi
    simp [Vector.get]
  have hdirty : g.blocks.reverse.foldlM (fun dirty block ↦ setEntry dirty block true)
      (Vector.replicate n false) = .ok (Worklist.start eqs schedule).dirty := by
    rw [foldlM_order hg (fun dirty v ↦ pure (replaceRow dirty v.block true))
      fun v _ dirty ↦ setEntry_row dirty v.block true, List.foldlM_pure]
    rfl
  rw [startWorklist, hrow, Vector.ofFnM_pure, hliveIn, hdirty]
  rfl

end Visits

/-- On every graph, and whatever its edge lists say, the solver that goes by indices answers as the
solver that goes by a schedule; so it uses no index that is out of bounds. -/
theorem solve_eq (solver : Solver) (g : FlowGraph) (eqs : Equations α n) :
    solve solver g eqs = (solver.solve g eqs).mapError .reported := by
  obtain ⟨strategy, cap⟩ := solver
  cases hg : g.schedule n with
  | error error =>
    rw [Solver.solve_of_schedule_error hg, solve, requireCovered_eq, hg]
    rfl
  | ok schedule =>
    have hcovered : requireCovered g n = .ok () := by
      rw [requireCovered_eq, hg]
      rfl
    have hlength : g.blocks.reverse.length = schedule.length := by
      rw [FlowGraph.length_schedule hg, List.length_reverse]
    cases strategy with
    | roundRobin =>
      have hrun : sweepToRest _ _ _ _ _ _ =
          (RoundRobin.run eqs schedule cap).mapError Stop.reported :=
        sweepToRest_mapError Stop.reported (sweepRoundRobin_eq hg eqs) _ _ _ _ _
      simp only [solve, hcovered, hlength, hrun, ok_bind, Solver.solve_roundRobin hg]
      cases RoundRobin.run eqs schedule cap <;> rfl
    | worklist =>
      have hrun : sweepToRest _ _ _ _ _ _ =
          (Worklist.run eqs schedule cap).mapError Stop.reported :=
        sweepToRest_mapError Stop.reported (sweepWorklist_eq hg eqs) _ _ _ _ _
      simp only [solve, hcovered, hlength, startWorklist_eq hg, hrun, ok_bind,
        Solver.solve_worklist hg]
      cases Worklist.run eqs schedule cap <;> rfl

-- Without the check in front, a successor that has no row would be used as an index.
example : visitRoundRobin ⟨[0], fun _ ↦ [7], fun _ ↦ []⟩ (Equations.trivial 1 : Equations Nat 1)
    .start 0 = .error (.outOfBounds 7) := rfl

end Indexed

end BlockFlow
