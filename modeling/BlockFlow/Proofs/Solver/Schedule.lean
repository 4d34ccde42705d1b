import BlockFlow.Proofs.Fallible
import BlockFlow.Solver.Schedule

/-!
# What a schedule says about its graph

A schedule has one visit for each enumerated block, in reverse order, and a visit lists the
neighbours of its block as the graph has them. Two visits of one block are equal. Where the edge
lists of the graph agree, so do those of the visits.
-/

namespace BlockFlow

variable {n : Nat}

/-- Looking up a list of blocks succeeds exactly if they are the rows that come out. -/
theorem mapM_rowOf_eq_ok_iff {blocks : List BlockId} {rows : List (Fin n)} :
    blocks.mapM (rowOf n) = .ok rows ↔ blocks = rows.map Fin.val := by
  rw [mapM_eq_ok_iff, ← List.forall₂_eq_eq_eq, List.forall₂_map_right_iff]
  simp only [rowOf_eq_ok_iff]

/-- Looking up a list of blocks fails exactly if one of them has no row, and reports the first. -/
theorem mapM_rowOf_eq_error_iff {blocks : List BlockId} {error : SolveError} :
    blocks.mapM (rowOf n) = .error error ↔
      ∃ b, blocks.find? (n ≤ ·) = some b ∧ error = .missingBlock b := by
  have hrow (b : BlockId) (error : SolveError) : rowOf n b = .error error ↔
      ∃ c, [b].find? (n ≤ ·) = some c ∧ error = .missingBlock c := by
    rw [rowOf_eq_error_iff]
    by_cases hb : n ≤ b <;> simp [hb]
  rw [mapM_eq_error_iff_find hrow, List.flatMap_singleton']

namespace FlowGraph

/-- Every enumerated block and every successor of one has a row. -/
def Covered (g : FlowGraph) (n : Nat) : Prop :=
  ∀ b ∈ g.blocks, b < n ∧ ∀ s ∈ g.successors b, s < n

/-- A visit is found exactly if it holds the block, its successors and its predecessors. -/
theorem visit_eq_ok_iff {g : FlowGraph} {block : BlockId} {v : Visit n} :
    g.visit n block = .ok v ↔ block = v.block ∧ g.successors block = v.successors.map Fin.val ∧
      g.predecessors block = v.predecessors := by
  unfold visit
  rw [bind_eq_ok_iff]
  constructor
  · rintro ⟨row, hrow, h⟩
    obtain ⟨successors, hsucc, h⟩ := bind_eq_ok_iff.mp h
    cases h
    exact ⟨rowOf_eq_ok_iff.mp hrow, mapM_rowOf_eq_ok_iff.mp hsucc, rfl⟩
  · rintro ⟨hblock, hsucc, hpred⟩
    refine ⟨v.block, rowOf_eq_ok_iff.mpr hblock, ?_⟩
    rw [bind_eq_ok_iff]
    exact ⟨v.successors, mapM_rowOf_eq_ok_iff.mpr hsucc, by rw [hpred]; rfl⟩

/-- The blocks that are looked up for a schedule, in order: each enumerated block and then its
successors. -/
def mentioned (g : FlowGraph) : List BlockId := g.blocks.flatMap fun b ↦ b :: g.successors b

/-- A visit is not found exactly if the block or one of its successors has no row; the first of
them is reported, the block before its successors. -/
theorem visit_eq_error_iff {g : FlowGraph} {block : BlockId} {error : SolveError} :
    g.visit n block = .error error ↔
      ∃ b, (block :: g.successors block).find? (n ≤ ·) = some b ∧ error = .missingBlock b := by
  rw [← mapM_rowOf_eq_error_iff, List.mapM_cons, visit, bind_eq_error_iff, bind_eq_error_iff]
  simp [bind_eq_error_iff, pure, Except.pure]

variable {g : FlowGraph} {schedule : Schedule n}

/-- There is no schedule exactly if an enumerated block or a successor of one has no row; the first
that is mentioned is reported. -/
theorem schedule_eq_error_iff {error : SolveError} :
    g.schedule n = .error error ↔
      ∃ b, g.mentioned.find? (n ≤ ·) = some b ∧ error = .missingBlock b := by
  rw [mentioned, ← mapM_eq_error_iff_find fun _ _ ↦ visit_eq_error_iff, schedule, bind_eq_error_iff]
  simp [pure, Except.pure]

private theorem schedule_visits (h : g.schedule n = .ok schedule) :
    List.Forall₂ (fun b v ↦ g.visit n b = .ok v) g.blocks schedule.reverse := by
  unfold FlowGraph.schedule at h
  obtain ⟨visits, hvisits, h⟩ := bind_eq_ok_iff.mp h
  cases h
  rw [List.reverse_reverse]
  exact mapM_eq_ok_iff.mp hvisits

/-- A sweep has as many visits as there are enumerated blocks. -/
theorem length_schedule (h : g.schedule n = .ok schedule) :
    schedule.length = g.blocks.length := by
  rw [(schedule_visits h).length_eq, List.length_reverse]

/-- A sweep visits the enumerated blocks in reverse order. -/
theorem map_block_schedule (h : g.schedule n = .ok schedule) :
    schedule.map (fun v ↦ v.block.val) = g.blocks.reverse := by
  have hblocks : schedule.reverse.map (fun v ↦ v.block.val) = g.blocks := by
    rw [← List.forall₂_eq_eq_eq, List.forall₂_map_left_iff]
    exact (schedule_visits h).flip.imp fun v b hvisit ↦ (visit_eq_ok_iff.mp hvisit).1.symm
  rw [← hblocks, List.map_reverse, List.reverse_reverse]

/-- Every visit of a schedule is found at an enumerated block. -/
theorem visit_of_mem_schedule (h : g.schedule n = .ok schedule) {v : Visit n}
    (hv : v ∈ schedule) : ↑v.block ∈ g.blocks ∧ g.visit n v.block = .ok v := by
  have hmem : v ∈ schedule.reverse := List.mem_reverse.mpr hv
  obtain ⟨i, hi, hget⟩ := List.getElem_of_mem hmem
  have hlen := (schedule_visits h).length_eq
  have hvisit := (schedule_visits h).get (by omega : i < g.blocks.length) hi
  simp only [List.get_eq_getElem, hget] at hvisit
  have hblock := (visit_eq_ok_iff.mp hvisit).1
  rw [← hblock]
  exact ⟨List.getElem_mem _, hvisit⟩

/-- Every enumerated block has a visit. -/
theorem exists_mem_schedule (h : g.schedule n = .ok schedule) {block : BlockId}
    (hb : block ∈ g.blocks) : ∃ v ∈ schedule, ↑v.block = block := by
  obtain ⟨i, hi, hget⟩ := List.getElem_of_mem hb
  have hlen := (schedule_visits h).length_eq
  have hi' : i < schedule.reverse.length := by omega
  have hvisit := (schedule_visits h).get hi hi'
  simp only [List.get_eq_getElem, hget] at hvisit
  exact ⟨schedule.reverse[i], List.mem_reverse.mp (List.getElem_mem hi'),
    (visit_eq_ok_iff.mp hvisit).1.symm⟩

/-- The successors that a visit lists are those of its block. -/
theorem mem_successors_iff (h : g.schedule n = .ok schedule) {v : Visit n} (hv : v ∈ schedule)
    (s : Fin n) : s ∈ v.successors ↔ ↑s ∈ g.successors v.block := by
  obtain ⟨-, hvisit⟩ := visit_of_mem_schedule h hv
  obtain ⟨-, hsucc, -⟩ := visit_eq_ok_iff.mp hvisit
  rw [hsucc, List.mem_map]
  exact ⟨fun hs ↦ ⟨s, hs, rfl⟩, fun ⟨r, hr, heq⟩ ↦ Fin.ext heq ▸ hr⟩

/-- The predecessors that a visit lists are those of its block. -/
theorem predecessors_eq (h : g.schedule n = .ok schedule) {v : Visit n} (hv : v ∈ schedule) :
    v.predecessors = g.predecessors v.block :=
  (visit_eq_ok_iff.mp (visit_of_mem_schedule h hv).2).2.2.symm

/-- Where there is a schedule, every block that it needs has a row. -/
theorem covered_of_schedule (h : g.schedule n = .ok schedule) : g.Covered n := by
  intro b hb
  obtain ⟨v, hv, rfl⟩ := exists_mem_schedule h hb
  obtain ⟨-, hvisit⟩ := visit_of_mem_schedule h hv
  obtain ⟨-, hsucc, -⟩ := visit_eq_ok_iff.mp hvisit
  refine ⟨v.block.isLt, ?_⟩
  intro s hs
  rw [hsucc] at hs
  obtain ⟨r, -, rfl⟩ := List.mem_map.mp hs
  exact r.isLt

/-- Where every block that a schedule needs has a row, there is a schedule. -/
theorem Covered.exists_schedule (h : g.Covered n) : ∃ schedule, g.schedule n = .ok schedule := by
  have hvisit : ∀ b ∈ g.blocks, ∃ v, g.visit n b = .ok v := by
    intro b hb
    obtain ⟨hrow, hsucc⟩ := h b hb
    obtain ⟨rows, hrows⟩ := exists_mapM (f := rowOf n) (g.successors b) fun s hs ↦
      ⟨⟨s, hsucc s hs⟩, rowOf_eq_ok_iff.mpr rfl⟩
    exact ⟨⟨⟨b, hrow⟩, rows, g.predecessors b⟩,
      visit_eq_ok_iff.mpr ⟨rfl, mapM_rowOf_eq_ok_iff.mp hrows, rfl⟩⟩
  obtain ⟨visits, hvisits⟩ := exists_mapM g.blocks hvisit
  exact ⟨visits.reverse, bind_eq_ok_iff.mpr ⟨visits, hvisits, rfl⟩⟩

/-- If the predecessors of all enumerated blocks have rows, so have those that visits list. -/
theorem predecessors_lt (hp : ∀ b ∈ g.blocks, ∀ p ∈ g.predecessors b, p < n)
    (h : g.schedule n = .ok schedule) {v : Visit n} (hv : v ∈ schedule) :
    ∀ p ∈ v.predecessors, p < n := by
  rw [predecessors_eq h hv]
  exact hp v.block (visit_of_mem_schedule h hv).1

end FlowGraph

/-- What the worklist needs of a schedule: a block has one visit, and stands among the predecessors
of its scheduled successors. -/
structure Schedule.Linked (schedule : Schedule n) : Prop where
  unique : ∀ v ∈ schedule, ∀ u ∈ schedule, v.block = u.block → v = u
  marks : ∀ v ∈ schedule, ∀ u ∈ schedule, v.block ∈ u.successors → ↑u.block ∈ v.predecessors

/-- The schedule of a graph whose edge lists agree is linked. -/
theorem FlowGraph.EdgesAgree.linked {g : FlowGraph} {schedule : Schedule n} (hg : g.EdgesAgree)
    (h : g.schedule n = .ok schedule) : schedule.Linked where
  unique := by
    intro v hv u hu heq
    have hvisit := (visit_of_mem_schedule h hv).2
    rw [heq, (visit_of_mem_schedule h hu).2] at hvisit
    exact (Except.ok.inj hvisit).symm
  marks := by
    intro v hv u hu hmem
    rw [predecessors_eq h hv]
    exact hg u.block (visit_of_mem_schedule h hu).1 v.block ((mem_successors_iff h hu _).mp hmem)

end BlockFlow
