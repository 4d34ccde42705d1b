import BlockFlow.CommandLine
import BlockFlow.Proofs.Description.Assembly
import BlockFlow.Proofs.Liveness.Outcome

/-!
# The strategy is no part of the outcome

Two command lines that differ only in the strategy they name end alike, however the formats of files
are read: with the same exit code, the same error and the same output. Their arguments are accepted
or rejected for the same reason and make requests that differ only in the strategy; a configuration
is valid or not whatever its strategy; and over the procedures of a file, which are all coherent,
neither the reports of a session nor its error depend on the strategy.
-/

namespace BlockFlow

/-! ### Sessions -/

/-- The configuration with another strategy. -/
def Config.withStrategy (config : Config) (strategy : Strategy) : Config :=
  { config with liveness := { config.liveness with strategy } }

/-- Whether a configuration is valid does not depend on its strategy. -/
@[simp]
theorem Config.validate_withStrategy (config : Config) (strategy : Strategy) :
    (config.withStrategy strategy).validate = config.validate := rfl

namespace Session

/-- A session with another strategy. -/
def withStrategy (s : Session) (strategy : Strategy) : Session where
  config := s.config.withStrategy strategy
  valid := s.valid

/-- A valid configuration has a session. -/
theorem ofConfig_of_ok {config : Config} (h : config.validate = .ok ()) :
    ofConfig config = .ok ⟨config, h⟩ := by
  unfold ofConfig
  split <;> simp_all

/-- What is wrong with a configuration is why it has no session. -/
theorem ofConfig_of_error {config : Config} {error : ConfigError}
    (h : config.validate = .error error) : ofConfig config = .error error := by
  unfold ofConfig
  split <;> simp_all

/-- A configuration with another strategy has a session exactly if it has one itself. -/
theorem ofConfig_withStrategy (config : Config) (strategy : Strategy) :
    ofConfig (config.withStrategy strategy) = (ofConfig config).map (·.withStrategy strategy) := by
  cases h : config.validate with
  | ok _ =>
    rw [ofConfig_of_ok h, ofConfig_of_ok (config.validate_withStrategy strategy ▸ h)]
    rfl
  | error e =>
    rw [ofConfig_of_error h, ofConfig_of_error (config.validate_withStrategy strategy ▸ h)]
    rfl

/-- Over a coherent procedure the strategy makes no difference to a run. -/
theorem run_withStrategy (s : Session) (strategy : Strategy) {p : Procedure} (hp : p.Coherent)
    (analysis : Analysis) : (s.withStrategy strategy).run p analysis = s.run p analysis := by
  cases analysis with
  | valueNumbering => rfl
  | liveness =>
    have hsame : Liveness.analyze (s.withStrategy strategy).config.liveness p =
        Liveness.analyze s.config.liveness p :=
      Liveness.analyze_strategy hp strategy s.config.liveness.strategy s.config.liveness.maxPasses
    rw [run, run, hsame]

/-- Over coherent procedures the strategy makes no difference to a session. -/
theorem runAll_withStrategy (s : Session) (strategy : Strategy) {procedures : List Procedure}
    (hp : ∀ p ∈ procedures, p.Coherent) (analyses : List Analysis) :
    (s.withStrategy strategy).runAll procedures analyses = s.runAll procedures analyses := by
  refine mapM_congr ?_
  rintro ⟨p, analysis⟩ hjob
  obtain ⟨q, hq, hpair⟩ := List.mem_flatMap.mp hjob
  obtain ⟨_, -, hpair⟩ := List.mem_map.mp hpair
  cases hpair
  exact s.run_withStrategy strategy (hp p hq) analysis

end Session

/-- The procedures that are analyzed are coherent. -/
theorem ModuleDesc.coherent_of_analyzable {m : ModuleDesc} {procedures : List Procedure}
    (h : m.analyzable = .ok procedures) : ∀ p ∈ procedures, p.Coherent := by
  unfold analyzable at h
  cases hm : m.toProcedures with
  | error fault =>
    rw [hm] at h
    cases h
  | ok described =>
    rw [hm] at h
    cases h
    exact m.coherent_of_toProcedures hm

namespace CommandLine

/-! ### Requests -/

section

variable (formats : Formats) (contents : String → Option ByteArray)

/-- The reports under a configuration do not depend on its strategy. -/
theorem Request.reports_withStrategy (request : Request) (config : Config) (strategy : Strategy) :
    request.reports formats contents (config.withStrategy strategy) =
      request.reports formats contents config := by
  unfold reports
  cases ModuleDesc.ofFile formats request.input (contents request.input) with
  | error e => rfl
  | ok described =>
    cases hp : described.analyzable with
    | error e => simp [bind, Except.bind, hp]
    | ok procedures =>
      have hcoherent := ModuleDesc.coherent_of_analyzable hp
      simp only [bind, Except.bind, hp, Session.ofConfig_withStrategy]
      cases Session.ofConfig config with
      | error e => rfl
      | ok s => exact s.runAll_withStrategy strategy hcoherent request.analyses

/-- A strategy that a request names is put into the configuration that it asks for otherwise. -/
theorem Request.configuration_strategy (request : Request) (strategy : Strategy) :
    Request.configuration formats { request with strategy := some strategy } contents =
      (Request.configuration formats { request with strategy := none } contents).map
        (·.withStrategy strategy) := by
  unfold configuration
  cases request.config with
  | none => rfl
  | some path =>
    dsimp only
    cases Config.ofFile formats (contents path) <;> rfl

/-- A request that names a strategy ends as it does without. -/
theorem Request.run_strategy (request : Request) (strategy : Strategy) :
    Request.run formats { request with strategy := some strategy } contents =
      Request.run formats { request with strategy := none } contents := by
  rw [run, run, configuration_strategy]
  cases Request.configuration formats { request with strategy := none } contents with
  | error e => rfl
  | ok config =>
    have hreports : Request.reports formats { request with strategy := some strategy } contents
          (config.withStrategy strategy) =
        Request.reports formats { request with strategy := none } contents config :=
      request.reports_withStrategy formats contents config strategy
    simp only [Except.map, hreports]

/-- Requests that agree in all but the strategy end alike. -/
theorem Request.run_eq_of_agree {request request' : Request}
    (h : { request with strategy := none } = { request' with strategy := none }) :
    request.run formats contents = request'.run formats contents := by
  have hnone : ∀ r : Request,
      r.run formats contents = Request.run formats { r with strategy := none } contents := by
    rintro ⟨input, analyses, config, strategy, format, verbosity⟩
    cases strategy with
    | none => rfl
    | some strategy =>
      exact run_strategy formats contents ⟨input, analyses, config, none, format, verbosity⟩ _
  rw [hnone request, hnone request', h]

end

/-! ### Arguments -/

namespace Arguments

/-- Arguments that both name a strategy, and otherwise say the same. -/
def AgreeButStrategy (a b : Arguments) : Prop :=
  ∃ (c : Arguments) (strategy strategy' : Strategy),
    a = { c with strategy := some strategy } ∧ b = { c with strategy := some strategy' }

variable {a b : Arguments}

/-- A setting is accepted by both or by neither; a second strategy by neither. -/
theorem AgreeButStrategy.set (h : AgreeButStrategy a b) (setting : Setting) (value : String) :
    Alike AgreeButStrategy (a.set setting value) (b.set setting value) := by
  obtain ⟨c, strategy, strategy', rfl, rfl⟩ := h
  cases setting with
  | strategy => exact .error _
  | analysis =>
    exact .bind_right _ fun analyses ↦
      .ok ⟨{ c with analyses := some analyses }, strategy, strategy', rfl, rfl⟩
  | config =>
    exact .bind_right _ fun config ↦
      .ok ⟨{ c with config := some config }, strategy, strategy', rfl, rfl⟩
  | format =>
    exact .bind_right _ fun format ↦
      .ok ⟨{ c with format := some format }, strategy, strategy', rfl, rfl⟩

/-- An input file is accepted by both or by neither. -/
theorem AgreeButStrategy.setInput (h : AgreeButStrategy a b) (value : String) :
    Alike AgreeButStrategy (a.setInput value) (b.setInput value) := by
  obtain ⟨c, strategy, strategy', rfl, rfl⟩ := h
  unfold Arguments.setInput
  dsimp only
  split
  · exact .error _
  · exact .error _
  · next path _ _ => exact .ok ⟨{ c with input := some path }, strategy, strategy', rfl, rfl⟩

/-- Both count a flag. -/
theorem AgreeButStrategy.louder (h : AgreeButStrategy a b) :
    AgreeButStrategy { a with verbosity := a.verbosity + 1 }
      { b with verbosity := b.verbosity + 1 } := by
  obtain ⟨c, strategy, strategy', rfl, rfl⟩ := h
  exact ⟨{ c with verbosity := c.verbosity + 1 }, strategy, strategy', rfl, rfl⟩

/-- Arguments that agree but for the strategy, and wait for the value of the same setting. -/
def AgreeWaiting (x y : Arguments × Option Setting) : Prop :=
  AgreeButStrategy x.1 y.1 ∧ x.2 = y.2

/-- A setting whose value is attached leaves nothing to wait for. -/
theorem AgreeButStrategy.setAttached (h : AgreeButStrategy a b) (setting : Setting)
    (value : String) :
    Alike AgreeWaiting (do return (← a.set setting value, none))
      (do return (← b.set setting value, none)) :=
  (h.set setting value).bind fun _ _ hab ↦ .ok ⟨hab, rfl⟩

theorem AgreeButStrategy.long (h : AgreeButStrategy a b) (text : List Char) :
    Alike AgreeWaiting (a.long text) (b.long text) := by
  unfold Arguments.long
  dsimp only
  split
  · exact .error _
  · exact h.setAttached _ _
  · exact .ok ⟨h, rfl⟩
  · exact .error _
  · exact .ok ⟨h.louder, rfl⟩
  · exact .error _

theorem AgreeButStrategy.letters (h : AgreeButStrategy a b) (text : List Char) :
    Alike AgreeWaiting (a.letters text) (b.letters text) := by
  induction text generalizing a b with
  | nil => exact .ok ⟨h, rfl⟩
  | cons letter rest ih =>
    unfold Arguments.letters
    split
    · exact .error _
    · exact .error _
    · exact ih h.louder
    · split
      · exact h.setAttached _ _
      · exact .ok ⟨h, rfl⟩

theorem AgreeButStrategy.feed (h : AgreeButStrategy a b) (arg : String) :
    Alike AgreeWaiting (a.feed arg) (b.feed arg) := by
  unfold Arguments.feed
  split
  · exact h.long _
  · exact h.letters _
  · exact (h.setInput arg).bind fun _ _ hab ↦ .ok ⟨hab, rfl⟩

/-- Both take what follows two hyphens, or neither does. -/
theorem AgreeButStrategy.setInputs (h : AgreeButStrategy a b) (args : List String) :
    Alike AgreeButStrategy (args.foldlM Arguments.setInput a)
      (args.foldlM Arguments.setInput b) := by
  induction args generalizing a b with
  | nil => exact .ok h
  | cons arg args ih =>
    rw [List.foldlM_cons, List.foldlM_cons]
    exact (h.setInput arg).bind fun _ _ hab ↦ ih hab

/-- The arguments that follow are accepted by both or by neither. -/
theorem AgreeButStrategy.feedAll (h : AgreeButStrategy a b) (waiting : Option Setting)
    (args : List String) :
    Alike AgreeButStrategy (a.feedAll waiting args) (b.feedAll waiting args) := by
  induction args generalizing a b waiting with
  | nil =>
    cases waiting with
    | none => exact .ok h
    | some setting => exact .error _
  | cons arg args ih =>
    cases waiting with
    | some setting =>
      unfold Arguments.feedAll
      split
      · exact .error _
      · exact (h.set setting arg).bind fun _ _ hab ↦ ih hab none
    | none =>
      unfold Arguments.feedAll
      split
      · exact h.setInputs args
      · refine (h.feed arg).bind ?_
        rintro ⟨a, waiting⟩ ⟨b, _⟩ ⟨hab, rfl⟩
        exact ih hab waiting

/-- Two ends of a command line that are alike after all arguments stay so behind a common start, if
that does not end the options. -/
theorem feedAll_append {R : Arguments → Arguments → Prop} {args args' : List String}
    (h : ∀ a waiting, Alike R (feedAll a waiting args) (feedAll a waiting args'))
    {start : List String} (hstart : "--" ∉ start) (a : Arguments) (waiting : Option Setting) :
    Alike R (feedAll a waiting (start ++ args)) (feedAll a waiting (start ++ args')) := by
  induction start generalizing a waiting with
  | nil => exact h a waiting
  | cons arg start ih =>
    rw [List.mem_cons, not_or] at hstart
    cases waiting with
    | some setting =>
      simp only [List.cons_append, Arguments.feedAll]
      split
      · exact .error _
      · exact .bind_right _ fun a ↦ ih hstart.2 a none
    | none =>
      simp only [List.cons_append, Arguments.feedAll, if_neg (Ne.symm hstart.1)]
      exact .bind_right _ fun (a, waiting) ↦ ih hstart.2 a waiting

/-- A strategy that is named is taken unless one was named before, or another value is waited
for. -/
theorem feedAll_strategy (a : Arguments) (waiting : Option Setting) (rest : List String) :
    Alike AgreeButStrategy (a.feedAll waiting ("--strategy" :: "round-robin" :: rest))
      (a.feedAll waiting ("--strategy" :: "worklist" :: rest)) := by
  cases waiting with
  | some setting => exact .error _
  | none =>
    have hset : Alike AgreeButStrategy (a.set .strategy "round-robin")
        (a.set .strategy "worklist") := by
      unfold set
      cases a.strategy with
      | some _ => exact .error _
      | none => exact .ok ⟨a, .roundRobin, .worklist, rfl, rfl⟩
    exact hset.bind fun _ _ hab ↦ hab.feedAll none rest

end Arguments

/-- Command lines that differ in a strategy only are rejected for the same reason, or make requests
that differ in the strategy only. -/
theorem Request.ofArgs_strategy {start : List String} (hstart : "--" ∉ start)
    (rest : List String) :
    Alike (fun x y : Request ↦ { x with strategy := none } = { y with strategy := none })
      (ofArgs (start ++ "--strategy" :: "round-robin" :: rest))
      (ofArgs (start ++ "--strategy" :: "worklist" :: rest)) := by
  have hargs := Arguments.feedAll_append (fun a waiting ↦ a.feedAll_strategy waiting rest) hstart
    {} none
  refine hargs.bind ?_
  rintro _ _ ⟨c, strategy, strategy', rfl, rfl⟩
  dsimp only
  split
  · exact .error _
  · exact .ok rfl

/-- Naming one strategy or the other makes no difference, however files are read and reports are
printed, and whatever the files hold. A request, whatever its input file, configuration file,
analyses and format, ends the same way for both; and so does a command line, which may also be
rejected, and which is then rejected the same way. -/
theorem outcome_strategy (formats : Formats) (contents : String → Option ByteArray) :
    (∀ request : Request,
      Request.run formats { request with strategy := some .roundRobin } contents =
        Request.run formats { request with strategy := some .worklist } contents) ∧
    ∀ start rest : List String, "--" ∉ start →
      run formats (start ++ "--strategy" :: "round-robin" :: rest) contents =
        run formats (start ++ "--strategy" :: "worklist" :: rest) contents := by
  refine ⟨fun request ↦ ?_, fun start rest hstart ↦ ?_⟩
  · exact Request.run_eq_of_agree formats contents (by rfl)
  · unfold run
    have halike := Request.ofArgs_strategy hstart rest
    generalize Request.ofArgs (start ++ "--strategy" :: "round-robin" :: rest) = x at halike ⊢
    generalize Request.ofArgs (start ++ "--strategy" :: "worklist" :: rest) = y at halike ⊢
    cases halike with
    | error stop => rfl
    | ok h => exact Request.run_eq_of_agree formats contents h

/-- A module whose one procedure loads a variable over and over, and a configuration that admits one
sweep. -/
def loopFiles (path : String) : Option ByteArray :=
  if path = "loop.yaml" then
    some ("functions:\n- name: f\n  blocks:\n  - name: a\n    successors: [a]\n" ++
      "    instructions:\n    - opcode: load\n      operands: [x]\n").toUTF8
  else if path = "tight.yaml" then some "version: 1\nliveness:\n  max_passes: 1\n".toUTF8
  else none

/-- Both strategies fail by the cap where it is tight, and print the same report where it is not. -/
theorem loopFiles_outcome :
    "--" ∉ ["loop.yaml", "-c", "tight.yaml"] ∧
    run .own ["loop.yaml", "-c", "tight.yaml", "--strategy", "round-robin", "-fjson"] loopFiles =
      .failure (.analysis (.dataflow (.iterationLimit 1 1))) ∧
    run .own ["--strategy", "round-robin", "loop.yaml", "-a", "liveness"] loopFiles =
      .success "Liveness analysis: f\n------ a ------\nUEVAR: x\nVARKILL:\nLIVEOUT: x\n" := by
  have hstart : "--" ∉ ["loop.yaml", "-c", "tight.yaml"] := by decide
  have hagree := (outcome_strategy .own loopFiles).2
  have htight := hagree ["loop.yaml", "-c", "tight.yaml"] ["-fjson"] hstart
  have hloose := hagree [] ["loop.yaml", "-a", "liveness"] (by decide)
  refine ⟨hstart, htight.trans ?_, hloose.trans ?_⟩
  · decide +kernel
  · decide +kernel

end CommandLine

end BlockFlow
