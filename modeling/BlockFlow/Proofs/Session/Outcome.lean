import BlockFlow.Proofs.Description.Assembly
import BlockFlow.Proofs.Liveness.Outcome
import BlockFlow.Session

/-!
# What a session answers

Value numbering cannot fail, and over a coherent procedure liveness fails only by the cap. So a
session over the procedures of a description fails exactly if liveness is asked for and a procedure
needs more sweeps than the cap admits, and what it reports then is about the first such procedure.
Otherwise there is one report for each procedure and analysis, the one that a run of its own gives.
-/

namespace BlockFlow.Session

/-! ### Runs -/

/-- The session of a configuration holds it. -/
theorem config_of_ofConfig {config : Config} {s : Session} (h : ofConfig config = .ok s) :
    s.config = config := by
  unfold ofConfig at h
  split at h
  · cases h
    rfl
  · cases h

/-- Over a coherent procedure the only run that can fail is one of liveness, and only by the cap. -/
theorem run_eq_error_iff (s : Session) {p : Procedure} (hp : p.Coherent) (analysis : Analysis)
    (error : AnalysisError) :
    s.run p analysis = .error error ↔
      analysis = .liveness ∧ Liveness.Exceeds s.config.liveness p ∧
        error = .dataflow (.iterationLimit s.config.liveness.maxPasses p.blocks.size) := by
  cases analysis with
  | valueNumbering => simp [run]
  | liveness =>
    have hanalyze := Liveness.analyze_eq_error_iff hp s.config.liveness
    rw [run]
    cases hresult : Liveness.analyze s.config.liveness p with
    | ok report =>
      have hfine : ¬Liveness.Exceeds s.config.liveness p := by
        intro hexceeds
        have hfails := (hanalyze _).mpr ⟨hexceeds, rfl⟩
        rw [hresult] at hfails
        cases hfails
      simp [hfine]
    | error e =>
      obtain ⟨hexceeds, rfl⟩ := (hanalyze e).mp hresult
      simp [hexceeds, eq_comm]

/-! ### Rows of reports -/

/-- The analyses of one coherent procedure fail exactly if liveness is among them and the procedure
exceeds the cap. -/
theorem row_eq_error_iff (s : Session) {p : Procedure} (hp : p.Coherent) (analyses : List Analysis)
    (error : AnalysisError) :
    analyses.mapM (s.run p) = .error error ↔
      .liveness ∈ analyses ∧ Liveness.Exceeds s.config.liveness p ∧
        error = .dataflow (.iterationLimit s.config.liveness.maxPasses p.blocks.size) := by
  have hfails : ∀ e, analyses.mapM (s.run p) = .error e →
      .liveness ∈ analyses ∧ Liveness.Exceeds s.config.liveness p ∧
        e = .dataflow (.iterationLimit s.config.liveness.maxPasses p.blocks.size) := by
    intro e he
    obtain ⟨pre, analysis, post, rfl, -, hrun⟩ := mapM_eq_error_iff.mp he
    obtain ⟨rfl, hexceeds, herror⟩ := (s.run_eq_error_iff hp analysis e).mp hrun
    exact ⟨by simp, hexceeds, herror⟩
  refine ⟨hfails error, ?_⟩
  rintro ⟨hmem, hexceeds, rfl⟩
  cases hrow : analyses.mapM (s.run p) with
  | error e => rw [(hfails e hrow).2.2]
  | ok row =>
    obtain ⟨i, hi⟩ := List.mem_iff_getElem?.mp hmem
    obtain ⟨report, hreport, -⟩ := exists_getElem?_of_mapM hrow hi
    rw [(s.run_eq_error_iff hp .liveness _).mpr ⟨rfl, hexceeds, rfl⟩] at hreport
    cases hreport

/-- In a table whose rows all have one length, an entry stands after the full rows before it. -/
theorem getElem?_flatten_of_length {α : Type} {rows : List (List α)} {width : Nat}
    (h : ∀ row ∈ rows, row.length = width) {i j : Nat} {row : List α} (hrow : rows[i]? = some row)
    (hj : j < width) : rows.flatten[i * width + j]? = row[j]? := by
  induction rows generalizing i with
  | nil => simp at hrow
  | cons first rows ih =>
    have hfirst : first.length = width := h first (by simp)
    rw [List.flatten_cons]
    cases i with
    | zero =>
      simp only [List.getElem?_cons_zero, Option.some.injEq] at hrow
      subst hrow
      rw [List.getElem?_append_left (by omega)]
      simp
    | succ i =>
      rw [List.getElem?_cons_succ] at hrow
      have hskip : (i + 1) * width + j = first.length + (i * width + j) := by
        rw [hfirst, Nat.succ_mul]
        omega
      rw [hskip, List.getElem?_append_right (by omega), Nat.add_sub_cancel_left]
      exact ih (fun row hmem ↦ h row (by simp [hmem])) hrow

/-! ### Whole sessions -/

/-- A session makes a row of reports for each procedure. -/
theorem runAll_eq (s : Session) (procedures : List Procedure) (analyses : List Analysis) :
    s.runAll procedures analyses =
      (procedures.mapM fun p ↦ analyses.mapM (s.run p)).map List.flatten := by
  change (jobs procedures analyses).mapM (fun job ↦ s.run job.1 job.2) = _
  induction procedures with
  | nil => rfl
  | cons p procedures ih =>
    have hrow : (analyses.map (p, ·)).mapM (fun job ↦ s.run job.1 job.2) =
        analyses.mapM (s.run p) := List.mapM_map
    unfold jobs at ih ⊢
    rw [List.flatMap_cons, List.mapM_append, hrow, ih, List.mapM_cons]
    cases analyses.mapM (s.run p) with
    | error e => rfl
    | ok row => cases procedures.mapM fun p ↦ analyses.mapM (s.run p) <;> rfl

variable {s : Session} {procedures : List Procedure} {analyses : List Analysis}

/-- A session over coherent procedures fails exactly if liveness is asked for and some procedure
exceeds the cap; the error is about the first one that does. -/
theorem runAll_eq_error_iff (hp : ∀ p ∈ procedures, p.Coherent) (error : AnalysisError) :
    s.runAll procedures analyses = .error error ↔
      .liveness ∈ analyses ∧ ∃ pre p post, procedures = pre ++ p :: post ∧
        (∀ q ∈ pre, ¬Liveness.Exceeds s.config.liveness q) ∧
        Liveness.Exceeds s.config.liveness p ∧
        error = .dataflow (.iterationLimit s.config.liveness.maxPasses p.blocks.size) := by
  rw [runAll_eq, map_eq_error_iff, mapM_eq_error_iff]
  constructor
  · rintro ⟨pre, p, post, rfl, hpre, hrow⟩
    obtain ⟨hmem, hexceeds, herror⟩ :=
      (s.row_eq_error_iff (hp p (by simp)) analyses error).mp hrow
    refine ⟨hmem, pre, p, post, rfl, ?_, hexceeds, herror⟩
    intro q hq hexceeds'
    obtain ⟨row, hok⟩ := hpre q hq
    rw [(s.row_eq_error_iff (hp q (by simp [hq])) analyses _).mpr ⟨hmem, hexceeds', rfl⟩] at hok
    cases hok
  · rintro ⟨hmem, pre, p, post, rfl, hpre, hexceeds, herror⟩
    refine ⟨pre, p, post, rfl, ?_,
      (s.row_eq_error_iff (hp p (by simp)) analyses error).mpr ⟨hmem, hexceeds, herror⟩⟩
    intro q hq
    cases hrow : analyses.mapM (s.run q) with
    | ok row => exact ⟨row, rfl⟩
    | error e =>
      have hfailed := (s.row_eq_error_iff (hp q (by simp [hq])) analyses e).mp hrow
      exact absurd hfailed.2.1 (hpre q hq)

/-- A session that succeeds has one report for each procedure and analysis, all those of one
procedure before those of the next, each of them the report of a run of its own. -/
theorem reports_of_runAll {reports : List Report} (h : s.runAll procedures analyses = .ok reports) :
    reports.length = procedures.length * analyses.length ∧
      ∀ i j p analysis, procedures[i]? = some p → analyses[j]? = some analysis →
        ∃ report, s.run p analysis = .ok report ∧
          reports[i * analyses.length + j]? = some report := by
  rw [runAll_eq, map_eq_ok_iff] at h
  obtain ⟨rows, hrows, rfl⟩ := h
  have hlength : ∀ row ∈ rows, row.length = analyses.length := by
    intro row hrow
    obtain ⟨p, -, hp⟩ := exists_mem_of_mapM hrows hrow
    exact (mapM_eq_ok_iff.mp hp).length_eq.symm
  constructor
  · have hsum : rows.map List.length = List.replicate rows.length analyses.length := by
      rw [List.eq_replicate_iff]
      simpa using hlength
    rw [List.length_flatten, hsum, List.sum_replicate, (mapM_eq_ok_iff.mp hrows).length_eq]
    simp
  · intro i j p analysis hi hj
    obtain ⟨row, hrow, hat⟩ := exists_getElem?_of_mapM hrows hi
    obtain ⟨report, hreport, hentry⟩ := exists_getElem?_of_mapM hrow hj
    have hwidth : j < analyses.length := (List.getElem?_eq_some_iff.mp hj).1
    exact ⟨report, hreport, by rw [getElem?_flatten_of_length hlength hat hwidth, hentry]⟩

/-- A session over the procedures of an accepted module, under an accepted configuration. Every
procedure has a number of sweeps that depends neither on the cap nor on the strategy. The session
fails exactly if liveness is asked for and some procedure needs more sweeps than the cap admits; the
error then names the cap and the number of blocks of the first such procedure, and is no internal
one. A session that succeeds has a report for each procedure and analysis, which is what a run over
that procedure alone gives. -/
theorem runAll_outcome (m : ModuleDesc) (config : Config) (s : Session)
    (procedures : List Procedure) (analyses : List Analysis)
    (hm : m.toProcedures = .ok procedures) (hs : ofConfig config = .ok s) :
    (∀ p ∈ procedures, ∃ sweeps, ∀ strategy, Liveness.UncappedSweeps strategy p sweeps) ∧
    ((∃ error, s.runAll procedures analyses = .error error) ↔
      .liveness ∈ analyses ∧ ∃ p ∈ procedures, Liveness.Exceeds config.liveness p) ∧
    (∀ error, s.runAll procedures analyses = .error error → error.isInternal = false ∧
      ∃ pre p post, procedures = pre ++ p :: post ∧
        (∀ q ∈ pre, ¬Liveness.Exceeds config.liveness q) ∧ Liveness.Exceeds config.liveness p ∧
        error = .dataflow (.iterationLimit config.liveness.maxPasses p.blocks.size)) ∧
    ∀ reports, s.runAll procedures analyses = .ok reports →
      reports.length = procedures.length * analyses.length ∧
      ∀ i j p analysis, procedures[i]? = some p → analyses[j]? = some analysis →
        ∃ report, s.run p analysis = .ok report ∧
          reports[i * analyses.length + j]? = some report := by
  have hp : ∀ p ∈ procedures, p.Coherent := m.coherent_of_toProcedures hm
  obtain rfl := config_of_ofConfig hs
  refine ⟨fun p hmem ↦ Liveness.exists_uncappedSweeps (hp p hmem), ⟨?_, ?_⟩, ?_,
    fun reports ↦ reports_of_runAll⟩
  · rintro ⟨error, herror⟩
    obtain ⟨hmem, pre, p, post, rfl, -, hexceeds, -⟩ := (runAll_eq_error_iff hp error).mp herror
    exact ⟨hmem, p, by simp, hexceeds⟩
  · rintro ⟨hmem, p, hin, hexceeds⟩
    cases hresult : s.runAll procedures analyses with
    | error error => exact ⟨error, rfl⟩
    | ok reports =>
      -- its liveness report would be the result of a run that fails
      obtain ⟨i, hi⟩ := List.mem_iff_getElem?.mp hin
      obtain ⟨j, hj⟩ := List.mem_iff_getElem?.mp hmem
      obtain ⟨report, hrun, -⟩ := (reports_of_runAll hresult).2 i j p .liveness hi hj
      rw [(s.run_eq_error_iff (hp p hin) .liveness _).mpr ⟨rfl, hexceeds, rfl⟩] at hrun
      cases hrun
  · intro error herror
    obtain ⟨-, hfirst⟩ := (runAll_eq_error_iff hp error).mp herror
    refine ⟨?_, hfirst⟩
    obtain ⟨pre, p, post, -, -, -, rfl⟩ := hfirst
    rfl

/-- A procedure of one block, and one whose second block loads what its first one leaves alone. -/
def relay : ModuleDesc where
  procedures := [
    { name := "short", blocks := [{ name := "only" }] },
    { name := "long"
      blocks := [
        { name := "first", successors := ["second"] },
        { name := "second", instructions := [{ opcode := "load", operands := ["x"] }] }] }]

/-- The procedures of the relay. -/
def relayProcedures : List Procedure := [
  { name := "short", values := #[]
    blocks := #[{ id := 0, name := "only", instructions := #[], successors := []
                  predecessors := [] }] },
  { name := "long", values := #[⟨some "x", none⟩, ⟨none, some (1, 0)⟩]
    blocks := #[
      { id := 0, name := "first", instructions := #[], successors := [1], predecessors := [] },
      { id := 1, name := "second", instructions := #[⟨.load, [0], 1⟩], successors := []
        predecessors := [0] }] }]

/-- A cap of one sweep is enough for the first procedure of the relay and not for the second. -/
theorem relay_outcome :
    relay.toProcedures = .ok relayProcedures ∧
    ∃ s, ofConfig { liveness := ⟨.worklist, 1⟩ } = .ok s ∧
      s.runAll relayProcedures [.liveness, .valueNumbering, .liveness] =
        .error (.dataflow (.iterationLimit 1 2)) ∧
      ∃ p ∈ relayProcedures, Liveness.Exceeds ⟨.worklist, 1⟩ p := by
  have hm : relay.toProcedures = .ok relayProcedures := by decide +kernel
  let s : Session := ⟨{ liveness := ⟨.worklist, 1⟩ }, rfl⟩
  have hs : ofConfig { liveness := ⟨.worklist, 1⟩ } = .ok s := rfl
  have hfails : s.runAll relayProcedures [.liveness, .valueNumbering, .liveness] =
      .error (.dataflow (.iterationLimit 1 2)) := by decide +kernel
  obtain ⟨-, hiff, -⟩ := runAll_outcome relay { liveness := ⟨.worklist, 1⟩ } s relayProcedures
    [.liveness, .valueNumbering, .liveness] hm hs
  exact ⟨hm, s, hs, hfails, (hiff.mp ⟨_, hfails⟩).2⟩

end BlockFlow.Session
