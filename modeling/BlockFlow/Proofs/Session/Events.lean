import BlockFlow.Proofs.Procedure.Inert
import BlockFlow.Proofs.Session.Outcome

/-!
# What the log says

The log of a run is computed beside its result. Main statement: it says of the result what is so.
Numbering points out every redundant record and no other, warns of every instruction that lacks an
operand it needs, and counts the records; liveness tells the number of sweeps of its report, and
nothing if it fails; a session has the lines of its runs, one run after the other, up to the one
that fails, and counts the reports if there is none.
-/

namespace BlockFlow

/-! ### Value numbering -/

namespace Numbering

/-- The event tells that the record is redundant, with its key and the name of its block. -/
def PointsOut (p : Procedure) (event : Event) (r : Record) : Prop :=
  ∃ site ∈ p.sites, r.subject = subjectOf p site ∧
    event = .debug s!"{p.name}: redundant expression '{r.source.text}' in block {site.block.name}"

/-- Whether the instruction lacks an operand that its opcode needs. -/
def lacksOperand (site : Site) : Bool :=
  match site.instruction.opcode with
  | .other _ => false
  | _ => site.instruction.isInert

/-- The warning about an instruction that lacks an operand. -/
def lackWarning (p : Procedure) (site : Site) : Event :=
  if site.instruction.opcode = .load then .warn s!"{p.name}: load without operand skipped"
  else .warn s!"{p.name}: {site.instruction.opcode.mnemonic} without two operands skipped"

/-- A scan takes a step at each of its sites, in order. -/
theorem map_site_scan (ordered : Bool) (t : Table) (sites : List Site) :
    (scan ordered t sites).2.map Step.site = sites := by
  induction sites generalizing t with
  | nil => rfl
  | cons site sites ih => exact congrArg (site :: ·) (ih _)

/-- Steps point out their redundant records and no others. -/
theorem debug_flatMap_events {p : Procedure} {steps : List Step}
    (h : ∀ step ∈ steps, step.site ∈ p.sites) :
    List.Forall₂ (PointsOut p) ((steps.flatMap (Step.events p)).filter (·.level = .debug))
      ((steps.filterMap (Step.record? p)).filter Record.redundant) := by
  induction steps with
  | nil => exact .nil
  | cons step steps ih =>
    obtain ⟨hsite, hrest⟩ := List.forall_mem_cons.mp h
    obtain ⟨site, assignment⟩ := step
    rw [List.flatMap_cons, List.filter_append]
    cases assignment with
    | none =>
      have hquiet : ((Step.events p ⟨site, none⟩).filter (·.level = .debug)) = [] := by
        unfold Step.events
        cases site.instruction.opcode <;> rfl
      rw [hquiet]
      exact ih hrest
    | some a =>
      by_cases hredundant : a.redundant = true
      · simp only [Step.events, hredundant, if_true, List.filterMap_cons, Step.record?,
          Option.map_some, List.filter_cons]
        exact .cons ⟨site, hsite, rfl, rfl⟩ (ih hrest)
      · simp only [Step.events, hredundant, Bool.false_eq_true, if_false, List.filterMap_cons,
          Step.record?, Option.map_some, List.filter_cons]
        exact ih hrest

/-- A scan warns of the instructions that lack an operand and of no others. -/
theorem warn_flatMap_events (ordered : Bool) (p : Procedure) (t : Table) (sites : List Site) :
    ((scan ordered t sites).2.flatMap (Step.events p)).filter (·.level = .warn) =
      (sites.filter lacksOperand).map (lackWarning p) := by
  induction sites generalizing t with
  | nil => rfl
  | cons site sites ih =>
    have hnone := assign_eq_none_iff ordered t site.instruction.result site.instruction.effect
    rw [← site.instruction.isInert_iff] at hnone
    rw [scan]
    dsimp only
    rw [List.flatMap_cons, List.filter_append, ih, List.filter_cons]
    cases ha : (t.assign ordered site.instruction.result site.instruction.effect).2 with
    | none =>
      have hinert := hnone.mp ha
      unfold Step.events lacksOperand lackWarning
      cases hop : site.instruction.opcode <;> simp [hinert, hop, Event.warn]
    | some a =>
      have hinert : site.instruction.isInert = false := by
        rw [ha] at hnone
        simpa using hnone
      have hfine : lacksOperand site = false := by
        unfold lacksOperand
        split
        · rfl
        · exact hinert
      simp only [Step.events, hfine]
      split <;> simp [Event.debug]

/-- The steps of a scan are details and warnings. -/
theorem info_flatMap_events (p : Procedure) (steps : List Step) :
    (steps.flatMap (Step.events p)).filter (·.level = .info) = [] := by
  rw [List.filter_eq_nil_iff]
  intro event hevent
  obtain ⟨step, -, hevent⟩ := List.mem_flatMap.mp hevent
  unfold Step.events at hevent
  split at hevent
  · split at hevent <;> simp_all [Event.debug]
  · split at hevent <;> simp_all [Event.warn]

/-- What numbering a procedure on any table writes to the log: a detail for each redundant record, a
warning for each instruction that lacks an operand, and one line that counts the records. -/
theorem eventsInto_tell (ordered : Bool) (p : Procedure) (t : Table) :
    let report := (numberInto ordered p t).2
    List.Forall₂ (PointsOut p) ((eventsInto ordered p t).filter (·.level = .debug))
      report.redundant ∧
    (eventsInto ordered p t).filter (·.level = .warn) =
      (p.sites.filter lacksOperand).map (lackWarning p) ∧
    (eventsInto ordered p t).filter (·.level = .info) =
      [.info (s!"Value numbering for {p.name}: {report.records.length} records, " ++
        s!"{report.redundant.length} redundant")] := by
  unfold eventsInto
  simp only [List.filter_append]
  refine ⟨?_, ?_, ?_⟩
  · have hsites : ∀ step ∈ (scan ordered t p.sites).2, step.site ∈ p.sites := by
      intro step hstep
      rw [← map_site_scan ordered t p.sites]
      exact List.mem_map_of_mem hstep
    rw [List.filter_cons_of_neg (by simp [Event.info]), List.filter_nil, List.append_nil]
    exact debug_flatMap_events hsites
  · simpa [Event.info] using warn_flatMap_events ordered p t p.sites
  · rw [info_flatMap_events]
    simp [Event.info]

end Numbering

/-! ### Liveness -/

/-- What liveness writes to the log: if it succeeds, how the solver came to its solution and the
number of sweeps in the report; if it fails, nothing. -/
theorem Liveness.events_tell (solver : Solver) (p : Procedure) :
    (∀ report, analyze solver p = .ok report →
      ∃ eqs solution, equations p = .ok eqs ∧ solver.solve p.graph eqs = .ok solution ∧
        events solver p = [solution.event p.blocks.size,
          .info (s!"Liveness for {p.name}: {report.blocks.length} blocks, fixpoint after " ++
            s!"{report.iterations} iterations")]) ∧
    ∀ error, analyze solver p = .error error → events solver p = [] := by
  unfold analyze events
  cases heqs : equations p with
  | error e => exact ⟨nofun, fun _ _ ↦ rfl⟩
  | ok eqs =>
    simp only [ok_bind]
    cases hsolution : solver.solve p.graph eqs with
    | error e => exact ⟨nofun, fun _ _ ↦ rfl⟩
    | ok solution =>
      refine ⟨?_, nofun⟩
      rintro report ⟨⟩
      refine ⟨eqs, solution, rfl, hsolution, ?_⟩
      simp [Procedure.blockIds]

/-! ### Sessions -/

namespace Session

variable (s : Session)

/-- A run that fails writes nothing. -/
theorem runEvents_of_error {p : Procedure} {analysis : Analysis} {error : AnalysisError}
    (h : s.run p analysis = .error error) : s.runEvents p analysis = [] := by
  cases analysis with
  | valueNumbering => cases h
  | liveness =>
    unfold runEvents
    rw [h]
    unfold run at h
    cases hanalyze : Liveness.analyze s.config.liveness p with
    | ok report =>
      rw [hanalyze] at h
      cases h
    | error e => exact (Liveness.events_tell s.config.liveness p).2 e hanalyze

/-- Jobs that all succeed write their lines one after the other. -/
theorem jobEvents_of_ok {jobs : List (Procedure × Analysis)}
    (h : ∀ job ∈ jobs, ∃ report, s.run job.1 job.2 = .ok report) :
    s.jobEvents jobs = jobs.flatMap fun job ↦ s.runEvents job.1 job.2 := by
  induction jobs with
  | nil => rfl
  | cons job jobs ih =>
    obtain ⟨⟨report, hreport⟩, hrest⟩ := List.forall_mem_cons.mp h
    rw [jobEvents, hreport, ih hrest]
    rfl

/-- Behind the first job that fails nothing is written. -/
theorem jobEvents_of_error {pre post : List (Procedure × Analysis)} {job : Procedure × Analysis}
    {error : AnalysisError} (hpre : ∀ job ∈ pre, ∃ report, s.run job.1 job.2 = .ok report)
    (h : s.run job.1 job.2 = .error error) :
    s.jobEvents (pre ++ job :: post) = pre.flatMap fun job ↦ s.runEvents job.1 job.2 := by
  induction pre with
  | nil =>
    rw [List.nil_append, jobEvents, h, s.runEvents_of_error h]
    rfl
  | cons first pre ih =>
    obtain ⟨⟨report, hreport⟩, hrest⟩ := List.forall_mem_cons.mp hpre
    rw [List.cons_append, jobEvents, hreport, ih hrest]
    rfl

/-- What a session writes to the log: the lines of its runs, one run after the other, and the
numbers of procedures and reports; if a run fails, the lines of the runs before it. -/
theorem runAllEvents_tell (procedures : List Procedure) (analyses : List Analysis) :
    (∀ reports, s.runAll procedures analyses = .ok reports →
      s.runAllEvents procedures analyses =
        (jobs procedures analyses).flatMap (fun job ↦ s.runEvents job.1 job.2) ++
          [.info s!"Analyzed {procedures.length} functions ({reports.length} reports)"]) ∧
    ∀ error, s.runAll procedures analyses = .error error →
      ∃ pre job post, jobs procedures analyses = pre ++ job :: post ∧
        (∀ job ∈ pre, ∃ report, s.run job.1 job.2 = .ok report) ∧
        s.run job.1 job.2 = .error error ∧
        s.runAllEvents procedures analyses = pre.flatMap fun job ↦ s.runEvents job.1 job.2 := by
  constructor
  · intro reports h
    have hall : ∀ job ∈ jobs procedures analyses, ∃ report, s.run job.1 job.2 = .ok report := by
      intro job hjob
      obtain ⟨i, hi⟩ := List.mem_iff_getElem?.mp hjob
      obtain ⟨report, hreport, -⟩ := exists_getElem?_of_mapM h hi
      exact ⟨report, hreport⟩
    rw [runAllEvents, s.jobEvents_of_ok hall, h]
  · intro error h
    obtain ⟨pre, job, post, hjobs, hpre, hjob⟩ := mapM_eq_error_iff.mp h
    refine ⟨pre, job, post, hjobs, hpre, hjob, ?_⟩
    rw [runAllEvents, h, hjobs, s.jobEvents_of_error hpre hjob, List.append_nil]

end Session

end BlockFlow
