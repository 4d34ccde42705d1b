import BlockFlow.Proofs.Solver.RoundRobin
import BlockFlow.Proofs.Solver.Schedule
import Mathlib.Data.List.Nodup

/-!
# Sweeps in place

A sweep goes through the blocks against the order of enumeration and writes each set where it
stands. Where every block is enumerated once, the set that a sweep leaves at a block is therefore
what its successors demand, those that are enumerated after the block with their new sets and the
others with their old ones.
-/

namespace BlockFlow

namespace FlowGraph

variable {g : FlowGraph} {b c : BlockId}

/-- The first block is enumerated before the second one. -/
def Before (g : FlowGraph) (b c : BlockId) : Prop := g.blocks.idxOf b < g.blocks.idxOf c

instance : Decidable (g.Before b c) := inferInstanceAs (Decidable (_ < _))

theorem Before.asymm (h : g.Before b c) : ¬g.Before c b := Nat.lt_asymm h

/-- Two blocks are enumerated one before the other, or they are the same. -/
theorem before_or_eq (hb : b ∈ g.blocks) (h : ¬g.Before c b) : g.Before b c ∨ b = c :=
  (Nat.lt_or_eq_of_le (Nat.le_of_not_lt h)).imp_right (List.idxOf_inj hb).mp

end FlowGraph

namespace RoundRobin

variable {α : Type} [FactOrder α] {n : Nat} (eqs : Equations α n)

/-- Visits leave the sets of all other blocks alone. -/
theorem foldl_get_of_forall_ne {visits : List (Visit n)} {c : Fin n}
    (h : ∀ v ∈ visits, v.block ≠ c) (state : RoundRobin α n) :
    (visits.foldl (visit eqs) state).out.get c = state.out.get c := by
  induction visits generalizing state with
  | nil => rfl
  | cons v visits ih =>
    rw [List.foldl_cons, ih (fun u hu ↦ h u (by simp [hu])), visit_out, get_replaceRow,
      if_neg (h v (by simp))]

/-- Visits leave at a block what the last one of it has written. -/
private theorem foldl_get_block {pre post : List (Visit n)} {v : Visit n}
    (hv : v.block ∉ post.map Visit.block) (state : RoundRobin α n) :
    ((pre ++ v :: post).foldl (visit eqs) state).out.get v.block =
      v.demand eqs (pre.foldl (visit eqs) state).out := by
  have hlater : ∀ u ∈ post, u.block ≠ v.block := fun u hu heq ↦ hv (heq ▸ List.mem_map_of_mem hu)
  rw [List.foldl_append, List.foldl_cons, foldl_get_of_forall_ne eqs hlater, visit_out,
    get_replaceRow, if_pos rfl]

private theorem idxOf_lt_iff {front rest : List BlockId} {b c : BlockId} (h : b ∉ front) :
    (front ++ b :: rest).idxOf b < (front ++ b :: rest).idxOf c ↔ c ∉ front ∧ c ≠ b := by
  rw [List.idxOf_append_of_notMem h, List.idxOf_cons_self]
  by_cases hc : c ∈ front
  · have hlt := List.idxOf_lt_length_of_mem hc
    rw [List.idxOf_append_of_mem hc]
    simp only [hc, not_true_eq_false, false_and, iff_false]
    omega
  · rw [List.idxOf_append_of_notMem hc]
    by_cases heq : c = b
    · simp [heq]
    · rw [List.idxOf_cons_ne _ (Ne.symm heq)]
      simp [hc, heq]

variable {g : FlowGraph} {schedule : Schedule n}

/-- Blocks that are enumerated once are visited once. -/
theorem nodup_visits (h : g.schedule n = .ok schedule) (hnodup : g.blocks.Nodup) :
    (schedule.map Visit.block).Nodup := by
  rw [← List.nodup_reverse, ← FlowGraph.map_block_schedule h, ← Function.comp_def,
    ← List.map_map] at hnodup
  exact hnodup.of_map

private theorem before_iff {pre post : List (Visit n)} {v : Visit n}
    (h : g.schedule n = .ok (pre ++ v :: post)) (hv : v.block ∉ post.map Visit.block)
    (s : Fin n) : g.Before v.block s ↔ s ∉ post.map Visit.block ∧ s ≠ v.block := by
  have hsplit : g.blocks = (post.map fun u ↦ u.block.val).reverse ++
      v.block.val :: (pre.map fun u ↦ u.block.val).reverse := by
    rw [← List.reverse_reverse g.blocks, ← FlowGraph.map_block_schedule h]
    simp
  rw [FlowGraph.Before, hsplit, idxOf_lt_iff (by simpa [← Fin.ext_iff] using hv)]
  simp [← Fin.ext_iff]

/-- A fact is in the set that a sweep leaves at a block exactly if it holds at the start of a
successor, by the new set of one that is enumerated after the block and by the old set of any
other. -/
theorem mem_sweep_iff (h : g.schedule n = .ok schedule) (hnodup : g.blocks.Nodup)
    (state : RoundRobin α n) {b : Fin n} (hb : ↑b ∈ g.blocks) (f : α) :
    f ∈ (sweep eqs schedule state).out.get b ↔
      ∃ s : Fin n, ↑s ∈ g.successors b ∧ f ∈ (eqs.get s).transfer
        ((if g.Before b s then sweep eqs schedule state else state).out.get s) := by
  obtain ⟨v, hv, hblock⟩ := FlowGraph.exists_mem_schedule h hb
  obtain rfl : v.block = b := Fin.ext hblock
  have hsuccessors := FlowGraph.mem_successors_iff h hv
  have hvisits := nodup_visits h hnodup
  obtain ⟨pre, post, rfl⟩ := List.append_of_mem hv
  rw [List.map_append, List.nodup_append, List.map_cons, List.nodup_cons] at hvisits
  obtain ⟨-, ⟨hnext, -⟩, hapart⟩ := hvisits
  rw [sweep, foldl_get_block eqs hnext, Visit.mem_demand]
  refine exists_congr fun s ↦ and_congr (hsuccessors s) ?_
  have hbefore := before_iff h hnext s
  -- a block that is enumerated after this one is visited before it, or not at all
  by_cases hpre : s ∈ pre.map Visit.block
  · have hpost : ∀ u ∈ v :: post, u.block ≠ s := fun u hu heq ↦
      hapart s hpre u.block (List.mem_map_of_mem hu) heq.symm
    have hlater : g.Before v.block s := hbefore.mpr
      ⟨fun hmem ↦ hapart s hpre s (List.mem_cons_of_mem _ hmem) rfl,
        (hpost v List.mem_cons_self).symm⟩
    rw [if_pos hlater, List.foldl_append, foldl_get_of_forall_ne eqs hpost]
  · have hold : ∀ u ∈ pre, u.block ≠ s := fun u hu heq ↦ hpre (heq ▸ List.mem_map_of_mem hu)
    rw [foldl_get_of_forall_ne eqs hold]
    split
    · next hlater =>
      obtain ⟨hpost, hne⟩ := hbefore.mp hlater
      have hunvisited : s ∉ (pre ++ v :: post).map Visit.block := by
        simpa [hne] using ⟨by simpa using hpre, by simpa using hpost⟩
      rw [foldl_get_of_forall_ne]
      exact fun u hu heq ↦ hunvisited (heq ▸ List.mem_map_of_mem hu)
    · rfl

end RoundRobin

end BlockFlow
