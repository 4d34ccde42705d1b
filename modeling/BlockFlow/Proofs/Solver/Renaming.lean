import BlockFlow.Proofs.Solver.Simulation

/-!
# Renaming facts

A solver joins sets of facts and compares them, and looks at no fact by itself. So if the facts of a
table are renamed, different facts by different names, every run goes through the renamed sets: it
makes the same visits, finds the same changes and comes to rest after the same number of sweeps, or
fails in the same way.
-/

namespace BlockFlow

variable {α β : Type} [FactOrder α] [FactOrder β] {n : Nat}

/-! ### Sets -/

namespace FactSet

/-- The set of what a map makes of the members of a set. -/
def image (f : α → β) (set : FactSet α) : FactSet β := ofList (set.toList.map f)

@[simp]
theorem mem_image {f : α → β} {set : FactSet α} {y : β} :
    y ∈ image f set ↔ ∃ x ∈ set, f x = y := by
  simp [image]

@[simp]
theorem image_empty (f : α → β) : image f ∅ = ∅ := by
  ext y
  simp

/-- A fact that is added to a set adds its name to the image. -/
theorem image_insert (f : α → β) (set : FactSet α) (x : α) :
    image f (set.insert x) = (image f set).insert (f x) := by
  ext y
  simp [Std.ExtTreeSet.mem_insert, or_and_right, exists_or]

/-- The image of a union is the union of the images. -/
theorem image_join (f : α → β) (sets : List (FactSet α)) :
    image f (join sets) = join (sets.map (image f)) := by
  ext y
  simp only [mem_image, mem_join, List.mem_map]
  constructor
  · rintro ⟨x, ⟨s, hs, hx⟩, rfl⟩
    exact ⟨image f s, ⟨s, hs, rfl⟩, mem_image.mpr ⟨x, hx, rfl⟩⟩
  · rintro ⟨_, ⟨s, hs, rfl⟩, hy⟩
    obtain ⟨x, hx, rfl⟩ := mem_image.mp hy
    exact ⟨x, ⟨s, hs, hx⟩, rfl⟩

variable {f : α → β} (hf : Function.Injective f)

include hf

/-- The name of a fact is in the image exactly if the fact is in the set. -/
theorem apply_mem_image {set : FactSet α} {x : α} : f x ∈ image f set ↔ x ∈ set := by
  simp [hf.eq_iff]

/-- Sets are told apart by their images. -/
theorem image_injective : Function.Injective (image f) := by
  intro s t h
  ext x
  rw [← apply_mem_image hf, h, apply_mem_image hf]

end FactSet

/-! ### Renamed tables and states -/

/-- The equation with its facts renamed. -/
def Equation.rename (f : α → β) (e : Equation α) : Equation β :=
  { gen := e.gen.image f, kill := e.kill.image f }

/-- The table with the facts of all its rows renamed. -/
def Equations.rename (f : α → β) (eqs : Equations α n) : Equations β n :=
  eqs.map (Equation.rename f)

/-- The sets with their facts renamed. -/
def FactSets.rename (f : α → β) (out : FactSets α n) : FactSets β n := out.map (FactSet.image f)

/-- The state with its facts renamed. -/
def RoundRobin.rename (f : α → β) (state : RoundRobin α n) : RoundRobin β n where
  out := state.out.rename f
  changed := state.changed
  visits := state.visits

/-- The state with its facts renamed. -/
def Worklist.rename (f : α → β) (state : Worklist α n) : Worklist β n where
  out := state.out.rename f
  liveIn := state.liveIn.rename f
  dirty := state.dirty
  changed := state.changed
  visits := state.visits

/-- The solution with its facts renamed. -/
def Solution.rename (f : α → β) (solution : Solution α n) : Solution β n where
  out := solution.out.rename f
  iterations := solution.iterations
  visits := solution.visits
  strategy := solution.strategy

@[simp]
theorem Equations.get_rename (f : α → β) (eqs : Equations α n) (i : Fin n) :
    (eqs.rename f).get i = (eqs.get i).rename f :=
  get_map _ eqs i

@[simp]
theorem FactSets.get_rename (f : α → β) (out : FactSets α n) (i : Fin n) :
    (out.rename f).get i = (out.get i).image f :=
  get_map _ out i

/-- Renaming a replaced row is replacing the row by its renamed set. -/
theorem FactSets.rename_replaceRow (f : α → β) (out : FactSets α n) (i : Fin n)
    (set : FactSet α) :
    FactSets.rename f (replaceRow out i set) = replaceRow (out.rename f) i (set.image f) :=
  Vector.map_set

/-- Empty sets have nothing to rename. -/
theorem FactSets.rename_replicate (f : α → β) :
    FactSets.rename f (Vector.replicate n ∅) = Vector.replicate n ∅ := by
  rw [FactSets.rename, Vector.map_replicate, FactSet.image_empty]

variable {f : α → β} (hf : Function.Injective f)

include hf

/-- What a block lets through is renamed with its equation. -/
theorem Equation.transfer_rename (e : Equation α) (out : FactSet α) :
    (e.rename f).transfer (out.image f) = (e.transfer out).image f := by
  ext y
  simp only [mem_transfer, rename, FactSet.mem_image]
  constructor
  · rintro (⟨x, hx, rfl⟩ | ⟨⟨x, hx, rfl⟩, hkill⟩)
    · exact ⟨x, .inl hx, rfl⟩
    · exact ⟨x, .inr ⟨hx, fun h ↦ hkill ⟨x, h, rfl⟩⟩, rfl⟩
  · rintro ⟨x, hx | ⟨hx, hkill⟩, rfl⟩
    · exact .inl ⟨x, hx, rfl⟩
    · refine .inr ⟨⟨x, hx, rfl⟩, ?_⟩
      rintro ⟨x', hx', heq⟩
      exact hkill (hf heq ▸ hx')

/-! ### Round-robin runs -/

namespace RoundRobin

/-- The demand of renamed sets is the renamed demand. -/
theorem demand_rename (v : Visit n) (eqs : Equations α n) (out : FactSets α n) :
    v.demand (eqs.rename f) (out.rename f) = (v.demand eqs out).image f := by
  rw [Visit.demand, Visit.demand, FactSet.image_join, List.map_map]
  congr 1
  refine List.map_congr_left fun s _ ↦ ?_
  rw [Equations.get_rename, FactSets.get_rename, Equation.transfer_rename hf]
  rfl

/-- A visit of renamed sets is the renamed visit. -/
theorem visit_rename (eqs : Equations α n) (state : RoundRobin α n) (v : Visit n) :
    visit (eqs.rename f) (state.rename f) v = (visit eqs state v).rename f := by
  have hdemand := demand_rename hf v eqs state.out
  have hsame : v.demand (eqs.rename f) (state.out.rename f) = (state.out.rename f).get v.block ↔
      v.demand eqs state.out = state.out.get v.block := by
    rw [hdemand, FactSets.get_rename]
    exact (FactSet.image_injective hf).eq_iff
  unfold visit
  by_cases h : v.demand eqs state.out = state.out.get v.block
  · rw [if_pos h]
    exact if_pos (hsame.mpr h)
  · rw [if_neg h]
    refine (if_neg (mt hsame.mp h)).trans ?_
    simp only [rename, FactSets.rename_replaceRow, hdemand]

/-- A sweep of renamed sets is the renamed sweep. -/
theorem sweep_rename (eqs : Equations α n) (schedule : Schedule n) (state : RoundRobin α n) :
    sweep (eqs.rename f) schedule (state.rename f) = (sweep eqs schedule state).rename f := by
  rw [sweep, sweep, ← List.foldl_hom (rename f) (visit_rename hf eqs)]
  rfl

/-- A run over a renamed table is the renamed run. -/
theorem run_rename (eqs : Equations α n) (schedule : Schedule n) (cap : Nat) :
    run (eqs.rename f) schedule cap =
      (run eqs schedule cap).map fun run ↦ (run.1.rename f, run.2) := by
  have hstart : (start : RoundRobin α n).rename f = start := by
    simp only [rename, start, FactSets.rename_replicate]
  rw [run, run, ← hstart]
  refine sweepToRest_translate (rename f) (fun state ↦ ?_) (fun _ ↦ rfl) _ cap 0 start
  rw [sweep_rename hf]
  rfl

end RoundRobin

/-! ### Worklist runs -/

namespace Worklist

omit hf in
/-- The demand by renamed facts is the renamed demand. -/
theorem demand_rename (w : Worklist α n) (v : Visit n) :
    (w.rename f).demand v = (w.demand v).image f := by
  rw [demand, demand, FactSet.image_join, List.map_map]
  congr 1
  exact List.map_congr_left fun s _ ↦ FactSets.get_rename f w.liveIn s

omit [FactOrder β] hf in
/-- A visit by the demand, branch by branch. -/
theorem visit_eq (eqs : Equations α n) (w : Worklist α n) (v : Visit n) :
    visit eqs w v =
      if w.dirty.get v.block then
        if w.demand v = w.out.get v.block then
          .ok { w with dirty := replaceRow w.dirty v.block false, visits := w.visits + 1 }
        else if (eqs.get v.block).transfer (w.demand v) = w.liveIn.get v.block then
          .ok { w with
            out := replaceRow w.out v.block (w.demand v)
            dirty := replaceRow w.dirty v.block false
            changed := true
            visits := w.visits + 1 }
        else (mark (replaceRow w.dirty v.block false) v.predecessors).map fun marked ↦ {
          out := replaceRow w.out v.block (w.demand v)
          liveIn := replaceRow w.liveIn v.block ((eqs.get v.block).transfer (w.demand v))
          dirty := marked
          changed := true
          visits := w.visits + 1 }
      else .ok w :=
  rfl

/-- A visit of renamed sets is the renamed visit, or fails as it does. -/
theorem visit_rename (eqs : Equations α n) (w : Worklist α n) (v : Visit n) :
    visit (eqs.rename f) (w.rename f) v = (visit eqs w v).map (rename f) := by
  have hout : (w.demand v).image f = (w.rename f).out.get v.block ↔
      w.demand v = w.out.get v.block := by
    rw [rename, FactSets.get_rename]
    exact (FactSet.image_injective hf).eq_iff
  have hin : ((eqs.get v.block).transfer (w.demand v)).image f =
      (w.rename f).liveIn.get v.block ↔
      (eqs.get v.block).transfer (w.demand v) = w.liveIn.get v.block := by
    rw [rename, FactSets.get_rename]
    exact (FactSet.image_injective hf).eq_iff
  rw [visit_eq, visit_eq, demand_rename, Equations.get_rename, Equation.transfer_rename hf]
  have hdirty : (w.rename f).dirty = w.dirty := rfl
  simp only [hdirty, hout, hin]
  split
  · split
    · rfl
    · split
      · simp only [Except.map, rename, FactSets.rename_replaceRow]
      · cases mark (replaceRow w.dirty v.block false) v.predecessors with
        | error error => rfl
        | ok marked => simp only [Except.map, rename, FactSets.rename_replaceRow]
  · rfl

/-- A sweep of renamed sets is the renamed sweep, or fails as it does. -/
theorem sweep_rename (eqs : Equations α n) (schedule : Schedule n) (w : Worklist α n) :
    sweep (eqs.rename f) schedule (w.rename f) = (sweep eqs schedule w).map (rename f) :=
  foldlM_translate (rename f) (visit_rename hf eqs) schedule { w with changed := false }

/-- A run over a renamed table is the renamed run, or fails as it does. -/
theorem run_rename (eqs : Equations α n) (schedule : Schedule n) (cap : Nat) :
    run (eqs.rename f) schedule cap =
      (run eqs schedule cap).map fun run ↦ (run.1.rename f, run.2) := by
  have hliveIn : (Equations.rename f eqs).map (·.transfer ∅) =
      FactSets.rename f (eqs.map (·.transfer ∅)) := by
    rw [Equations.rename, FactSets.rename, Vector.map_map, Vector.map_map]
    congr 1
    funext e
    rw [Function.comp_apply, Function.comp_apply, ← Equation.transfer_rename hf,
      FactSet.image_empty]
  have hstart : (start eqs schedule).rename f = start (eqs.rename f) schedule := by
    simp only [rename, start, FactSets.rename_replicate, hliveIn]
  rw [run, run, ← hstart]
  exact sweepToRest_translate (rename f) (sweep_rename hf eqs schedule) (fun _ ↦ rfl) _ cap 0 _

end Worklist

/-- The solution of a renamed table is the renamed solution, and where there is none the error is
the same. -/
theorem Solver.solve_rename (solver : Solver) (g : FlowGraph) (eqs : Equations α n) :
    solver.solve g (eqs.rename f) = (solver.solve g eqs).map (Solution.rename f) := by
  obtain ⟨strategy, cap⟩ := solver
  cases h : g.schedule n with
  | error error => rw [solve_of_schedule_error h, solve_of_schedule_error h, Except.map]
  | ok schedule =>
    cases strategy with
    | roundRobin =>
      rw [solve_roundRobin h, solve_roundRobin h, RoundRobin.run_rename hf]
      cases RoundRobin.run eqs schedule cap <;> rfl
    | worklist =>
      rw [solve_worklist h, solve_worklist h, Worklist.run_rename hf]
      cases Worklist.run eqs schedule cap <;> rfl

end BlockFlow
