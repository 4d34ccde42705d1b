import BlockFlow.Proofs.Solver.RoundRobin
import BlockFlow.Proofs.Solver.Schedule
import BlockFlow.Solver.Worklist

/-!
# Worklist runs

The remembered facts at the starts of the blocks are those that the sets at their ends give, and a
scheduled block that is clean has the set that its successors demand. Both survive every turn, so
skipping a clean block skips nothing: in every sweep the sets become what recomputing all blocks
would make of them.
-/

namespace BlockFlow

variable {α : Type} [FactOrder α] {n : Nat}

/-- The demand depends only on the facts at the starts of the successors. -/
theorem Visit.demand_congr {v : Visit n} {eqs : Equations α n} {out out' : FactSets α n}
    (h : ∀ s ∈ v.successors, (eqs.get s).transfer (out.get s) = (eqs.get s).transfer (out'.get s)) :
    v.demand eqs out = v.demand eqs out' := by
  unfold demand
  rw [List.map_congr_left h]

namespace Worklist

/-- What the successors of a visited block demand by the facts remembered at their starts. -/
def demand (w : Worklist α n) (v : Visit n) : FactSet α :=
  FactSet.join (v.successors.map fun s ↦ w.liveIn.get s)

/-! ### What a turn can do -/

/-- Marking keeps the marks that were there and sets those of the listed blocks. -/
theorem mark_spec {dirty marked : Vector Bool n} {blocks : List BlockId}
    (h : mark dirty blocks = .ok marked) (i : Fin n) :
    marked.get i = true ↔ dirty.get i = true ∨ ↑i ∈ blocks := by
  unfold mark at h
  induction blocks generalizing dirty with
  | nil =>
    cases h
    simp
  | cons b blocks ih =>
    rw [List.foldlM_cons, bind_eq_ok_iff] at h
    obtain ⟨next, hnext, h⟩ := h
    obtain ⟨row, hrow, hset⟩ := bind_eq_ok_iff.mp hnext
    cases hset
    rw [ih h, get_replaceRow, List.mem_cons, rowOf_eq_ok_iff.mp hrow, ← Fin.ext_iff]
    by_cases hi : row = i
    · simp [hi]
    · simp [hi, Ne.symm hi]

/-- Marking succeeds if every listed block has a row. -/
theorem exists_mark (dirty : Vector Bool n) {blocks : List BlockId} (h : ∀ b ∈ blocks, b < n) :
    ∃ marked, mark dirty blocks = .ok marked := by
  apply exists_foldlM
  intro b hb dirty
  exact ⟨_, bind_eq_ok_iff.mpr ⟨⟨b, h b hb⟩, rowOf_eq_ok_iff.mpr rfl, rfl⟩⟩

/-- Marking fails only at a listed block that has no row. -/
theorem exists_of_mark_eq_error {dirty : Vector Bool n} {blocks : List BlockId}
    {error : SolveError} (h : mark dirty blocks = .error error) :
    ∃ b ∈ blocks, n ≤ b ∧ error = .missingBlock b := by
  obtain ⟨b, hb, dirty, hstep⟩ := exists_of_foldlM_eq_error h
  rcases bind_eq_error_iff.mp hstep with hrow | ⟨row, -, hset⟩
  · exact ⟨b, hb, rowOf_eq_error_iff.mp hrow⟩
  · cases hset

/-- What the turn of a block can come to. -/
inductive Turn (eqs : Equations α n) (w : Worklist α n) (v : Visit n) : Worklist α n → Prop
  /-- The block is clean. -/
  | skip (hd : w.dirty.get v.block = false) : Turn eqs w v w
  /-- The successors demand the set that stands there. -/
  | same (hd : w.dirty.get v.block = true) (ho : w.demand v = w.out.get v.block) :
    Turn eqs w v { w with dirty := replaceRow w.dirty v.block false, visits := w.visits + 1 }
  /-- The set changes, but the facts at the start of the block do not. -/
  | absorb (hd : w.dirty.get v.block = true) (ho : w.demand v ≠ w.out.get v.block)
    (hi : (eqs.get v.block).transfer (w.demand v) = w.liveIn.get v.block) :
    Turn eqs w v { w with
      out := replaceRow w.out v.block (w.demand v)
      dirty := replaceRow w.dirty v.block false
      changed := true
      visits := w.visits + 1 }
  /-- The facts at the start change too, and the predecessors are marked. -/
  | spread (hd : w.dirty.get v.block = true) (ho : w.demand v ≠ w.out.get v.block)
    (hi : (eqs.get v.block).transfer (w.demand v) ≠ w.liveIn.get v.block) (marked : Vector Bool n)
    (hm : mark (replaceRow w.dirty v.block false) v.predecessors = .ok marked) :
    Turn eqs w v {
      out := replaceRow w.out v.block (w.demand v)
      liveIn := replaceRow w.liveIn v.block ((eqs.get v.block).transfer (w.demand v))
      dirty := marked
      changed := true
      visits := w.visits + 1 }

/-- A visit that succeeds is a turn. -/
theorem turn_of_visit {eqs : Equations α n} {w w' : Worklist α n} {v : Visit n}
    (h : visit eqs w v = .ok w') : Turn eqs w v w' := by
  dsimp only [visit] at h
  split at h
  · next hd =>
    split at h
    · next ho =>
      cases h
      exact .same hd ho
    · next ho =>
      split at h
      · next hi =>
        cases h
        exact .absorb hd ho hi
      · next hi =>
        obtain ⟨marked, hm, h⟩ := bind_eq_ok_iff.mp h
        cases h
        exact .spread hd ho hi marked hm
  · next hd =>
    cases h
    exact .skip (by simpa using hd)

/-- A visit succeeds if every predecessor of its block has a row. -/
theorem exists_visit (eqs : Equations α n) (w : Worklist α n) {v : Visit n}
    (h : ∀ p ∈ v.predecessors, p < n) : ∃ w', visit eqs w v = .ok w' := by
  dsimp only [visit]
  split
  · split
    · exact ⟨_, rfl⟩
    · split
      · exact ⟨_, rfl⟩
      · obtain ⟨marked, hm⟩ := exists_mark (replaceRow w.dirty v.block false) h
        exact ⟨_, bind_eq_ok_iff.mpr ⟨marked, hm, rfl⟩⟩
  · exact ⟨w, rfl⟩

/-- A visit fails only by a predecessor that has no row. -/
theorem exists_of_visit_eq_error {eqs : Equations α n} {w : Worklist α n} {v : Visit n}
    {error : SolveError} (h : visit eqs w v = .error error) :
    ∃ p ∈ v.predecessors, n ≤ p ∧ error = .missingBlock p := by
  dsimp only [visit] at h
  split at h
  · split at h
    · cases h
    · split at h
      · cases h
      · rcases bind_eq_error_iff.mp h with hmark | ⟨marked, -, h⟩
        · exact exists_of_mark_eq_error hmark
        · cases h
  · cases h

/-! ### The invariant -/

/-- The facts remembered at the starts of the blocks are those that the sets at their ends give. -/
def UpToDate (eqs : Equations α n) (w : Worklist α n) : Prop :=
  ∀ i : Fin n, w.liveIn.get i = (eqs.get i).transfer (w.out.get i)

/-- The remembered facts are up to date, and clean scheduled blocks need no visit. -/
structure Consistent (eqs : Equations α n) (schedule : Schedule n) (w : Worklist α n) : Prop where
  remembered : ∀ i : Fin n, w.liveIn.get i = (eqs.get i).transfer (w.out.get i)
  settled : ∀ v ∈ schedule, w.dirty.get v.block = false → v.demand eqs w.out = w.out.get v.block

variable {eqs : Equations α n} {schedule : Schedule n} {w w' : Worklist α n} {v : Visit n}

/-- At the start the remembered facts are the generated ones. -/
theorem upToDate_start : UpToDate eqs (start eqs schedule) := by
  intro i
  simp [start]

namespace UpToDate

/-- The demand by remembered facts is the demand by the sets. -/
theorem demand_eq (hw : UpToDate eqs w) (v : Visit n) : w.demand v = v.demand eqs w.out := by
  unfold Worklist.demand Visit.demand
  rw [List.map_congr_left fun s _ ↦ hw s]

/-- A turn leaves the sets alone or writes the demand. -/
theorem turn_out_or (hw : UpToDate eqs w) (h : Turn eqs w v w') :
    w'.out = w.out ∨ w'.out = replaceRow w.out v.block (v.demand eqs w.out) := by
  rw [← hw.demand_eq]
  cases h with
  | skip hd => exact .inl rfl
  | same hd ho => exact .inl rfl
  | absorb hd ho hi => exact .inr rfl
  | spread hd ho hi marked hm => exact .inr rfl

/-- Every turn remembers the facts that follow from what it writes. -/
theorem turn (hw : UpToDate eqs w) (h : Turn eqs w v w') : UpToDate eqs w' := by
  intro i
  cases h with
  | skip hd => exact hw i
  | same hd ho => exact hw i
  | absorb hd ho hi =>
    dsimp only
    rw [get_replaceRow]
    split
    · next heq =>
      subst heq
      exact hi.symm
    · exact hw i
  | spread hd ho hi marked hm =>
    dsimp only
    rw [get_replaceRow, get_replaceRow]
    split
    · next heq =>
      subst heq
      rfl
    · exact hw i

end UpToDate

private theorem foldl_set_true (visits : List (Visit n)) (dirty : Vector Bool n) (i : Fin n) :
    (visits.foldl (fun dirty v ↦ replaceRow dirty v.block true) dirty).get i = true ↔
      dirty.get i = true ∨ ∃ v ∈ visits, v.block = i := by
  induction visits generalizing dirty with
  | nil => simp
  | cons u visits ih =>
    rw [List.foldl_cons, ih, get_replaceRow]
    by_cases hi : u.block = i
    · simp [hi]
    · simp [hi]

/-- Every scheduled block is dirty at the start. -/
theorem start_dirty {v : Visit n} (hv : v ∈ schedule) :
    (start eqs schedule).dirty.get v.block = true :=
  (foldl_set_true schedule _ v.block).mpr (.inr ⟨v, hv, rfl⟩)

/-- A run starts consistent. -/
theorem consistent_start : Consistent eqs schedule (start eqs schedule) where
  remembered := upToDate_start
  settled := by
    intro v hv hclean
    rw [start_dirty hv] at hclean
    cases hclean

namespace Consistent

/-- The demand by remembered facts is the demand by the sets. -/
theorem demand_eq (hw : Consistent eqs schedule w) (v : Visit n) :
    w.demand v = v.demand eqs w.out :=
  UpToDate.demand_eq hw.remembered v

/-- A turn writes the demand, also where the block is skipped. -/
theorem turn_out (hw : Consistent eqs schedule w) (hv : v ∈ schedule) (h : Turn eqs w v w') :
    w'.out = replaceRow w.out v.block (v.demand eqs w.out) := by
  cases h with
  | skip hd =>
    rw [hw.settled v hv hd]
    exact (replaceRow_get _ _).symm
  | same hd ho =>
    rw [← hw.demand_eq, ho]
    exact (replaceRow_get _ _).symm
  | absorb hd ho hi => rw [hw.demand_eq]
  | spread hd ho hi marked hm => rw [hw.demand_eq]

/-- A turn reports a change if there was one before it or the demand is new. -/
theorem turn_changed_iff (hw : Consistent eqs schedule w) (hv : v ∈ schedule)
    (h : Turn eqs w v w') :
    w'.changed = true ↔ w.changed = true ∨ v.demand eqs w.out ≠ w.out.get v.block := by
  cases h with
  | skip hd => exact ⟨.inl, fun hc ↦ hc.resolve_right (not_not.mpr (hw.settled v hv hd))⟩
  | same hd ho =>
    rw [hw.demand_eq] at ho
    exact ⟨.inl, fun hc ↦ hc.resolve_right (not_not.mpr ho)⟩
  | absorb hd ho hi =>
    rw [hw.demand_eq] at ho
    exact ⟨fun _ ↦ .inr ho, fun _ ↦ rfl⟩
  | spread hd ho hi marked hm =>
    rw [hw.demand_eq] at ho
    exact ⟨fun _ ↦ .inr ho, fun _ ↦ rfl⟩

-- The turn of `v` unsettles a clean block `u` only if `v` is a successor of `u` and the facts at
-- the start of `v` change; a second visit of the block of `v` is the same visit.
private theorem settled_set (hw : Consistent eqs schedule w) (hs : schedule.Linked)
    (hv : v ∈ schedule) {u : Visit n} (hu : u ∈ schedule)
    (hclean : v.block = u.block ∨ w.dirty.get u.block = false)
    (hfar : v.block ∈ u.successors →
      (eqs.get v.block).transfer (v.demand eqs w.out) =
        (eqs.get v.block).transfer (w.out.get v.block)) :
    u.demand eqs (replaceRow w.out v.block (v.demand eqs w.out)) =
      (replaceRow w.out v.block (v.demand eqs w.out)).get u.block := by
  have hsame : u.demand eqs (replaceRow w.out v.block (v.demand eqs w.out)) =
      u.demand eqs w.out := by
    apply Visit.demand_congr
    intro s hmem
    rw [get_replaceRow]
    split
    · next heq =>
      subst heq
      exact hfar hmem
    · rfl
  rw [hsame, get_replaceRow]
  split
  · next heq => rw [hs.unique v hv u hu heq]
  · next hne => exact hw.settled u hu (hclean.resolve_left hne)

private theorem clean_set {u : Visit n}
    (h : (replaceRow w.dirty v.block false).get u.block = false) :
    v.block = u.block ∨ w.dirty.get u.block = false := by
  rw [get_replaceRow] at h
  split at h
  · next heq => exact .inl heq
  · exact .inr h

/-- Every turn keeps the invariant. -/
theorem turn (hw : Consistent eqs schedule w) (hs : schedule.Linked) (hv : v ∈ schedule)
    (h : Turn eqs w v w') : Consistent eqs schedule w' := by
  refine ⟨UpToDate.turn hw.remembered h, ?_⟩
  intro u hu hclean
  cases h with
  | skip hd => exact hw.settled u hu hclean
  | same hd ho =>
    rcases clean_set hclean with heq | hclean
    · rw [← hs.unique v hv u hu heq, ← hw.demand_eq, ho]
    · exact hw.settled u hu hclean
  | absorb hd ho hi =>
    rw [hw.demand_eq] at hi ⊢
    exact hw.settled_set hs hv hu (clean_set hclean) fun _ ↦ hi.trans (hw.remembered v.block)
  | spread hd ho hi marked hm =>
    rw [hw.demand_eq] at hi ⊢
    have hunmarked : ¬((replaceRow w.dirty v.block false).get u.block = true ∨
        ↑u.block ∈ v.predecessors) := by
      rw [← mark_spec hm, hclean]
      simp
    rw [not_or] at hunmarked
    apply hw.settled_set hs hv hu (clean_set (by simpa using hunmarked.1))
    intro hmem
    exact absurd (hs.marks v hv u hu hmem) hunmarked.2

end Consistent

/-- A turn recomputes one block at most. -/
theorem Turn.visits_le (h : Turn eqs w v w') : w'.visits ≤ w.visits + 1 := by
  cases h <;> simp

end Worklist

end BlockFlow
