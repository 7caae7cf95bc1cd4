import ManifestSearch.Proofs.Chain.Effects
import ManifestSearch.Proofs.CommandLine.BaseSettings
import ManifestSearch.Proofs.CommandLine.Flags
import ManifestSearch.Proofs.CommandLine.Settings

/-!
When a command line generates nothing. A flag or the settings of the file are enough to rule it out,
and nothing else that the arguments say takes that back: the tree stays as it is, and what is found
is what the reduced chain finds.
-/

namespace ManifestSearch

variable {disk : Disk} {world : World} {config start : Config} {context : Context}
  {folder : TempFolder} {base : String}

/-- The settings leave a manifest to be generated neither by the mode nor by the chain. -/
def Config.Restrained (config : Config) : Prop := config.mode = .restricted ∨ config.synthesis = false

theorem Config.context_mode (built : config.context disk base = .ok context) :
    context.mode = config.mode := by
  rw [Config.context, Context.at?] at built
  split at built
  · cases built
    rfl
  · contradiction

theorem Chain.full_restricted (convention : Convention) (synthesis : Synthesis)
    (restricted : context.mode = .restricted) (world : World) :
    let whole := (full convention synthesis).run context world
    whole.state = world ∧
      whole.report.outcome = ((reduced convention).run context world).report.outcome := by
  intro whole
  have silent : synthesis.run context world = ⟨⟨.ok [], [.noTempFiles context.mode]⟩, world⟩ :=
    Synthesis.run_of_not_allowed (by simp [restricted]) world
  constructor
  · rcases full_cases convention synthesis context world with ⟨-, same⟩ | ⟨-, same, -⟩
    · exact same
    · exact same.trans (congrArg Reply.state silent)
  · rw [full_outcome, reduced_outcome, silent]
    rfl

theorem Config.chain_restrained (restrained : config.Restrained)
    (mode : context.mode = config.mode) (folder : TempFolder) (world : World) :
    let done := (config.chain folder).run context world
    done.state = world ∧
      done.report.outcome =
        ((Chain.reduced config.convention).run context world).report.outcome := by
  cases synthesis : config.synthesis with
  | false =>
      have same : config.chain folder = .reduced config.convention := by
        rw [Config.chain, synthesis]
        rfl
      rw [same]
      exact ⟨Chain.reduced_state _ context world, rfl⟩
  | true =>
      have same : config.chain folder =
          .full config.convention (config.synthesisIn folder) := by
        rw [Config.chain, if_pos synthesis]
      have restricted : config.mode = .restricted := by simpa [Restrained, synthesis] using restrained
      rw [same]
      exact Chain.full_restricted _ _ (mode.trans restricted) world

namespace CommandLine

variable {arguments : Arguments} {systemTemp : String} {tempDir : Option String}
  {texts : List String}

namespace Arguments

theorem Adjusts.restrained (adjusts : arguments.Adjusts start config)
    (ruled : arguments.restricted ∨ arguments.noSynthesis ∨ start.Restrained) :
    config.Restrained := by
  rw [Config.Restrained, adjusts.mode, adjusts.synthesis]
  rcases ruled with restricted | noSynthesis | mode | synthesis
  · simp [restricted]
  · simp [noSynthesis]
  · simp [mode]
  · simp [synthesis]

theorem config_restrained (settled : (arguments.config disk).outcome = .ok config)
    (ruled : arguments.restricted ∨ arguments.noSynthesis ∨
      ∃ start, (arguments.baseConfig disk).outcome = .ok start ∧ start.Restrained) :
    config.Restrained := by
  rw [Arguments.config, Report.outcome_bind] at settled
  cases read : (arguments.baseConfig disk).outcome with
  | error failure =>
      rw [read] at settled
      contradiction
  | ok start =>
      rw [read] at settled
      refine (adjusts_of_adjust settled).restrained (ruled.imp_right (Or.imp_right ?_))
      rintro ⟨other, same, restrained⟩
      cases read.symm.trans same
      exact restrained

theorem run_of_failed {failure : Failure}
    (failed : (arguments.plan world.disk systemTemp).outcome = .error failure) :
    (arguments.run systemTemp world).state = world := by
  simp only [run, failed]

theorem plan_outcome (arguments : Arguments) (disk : Disk) (systemTemp : String) :
    (arguments.plan disk systemTemp).outcome =
      (arguments.config disk).outcome.bind (arguments.planOf disk systemTemp) := by
  rw [plan, Report.outcome_bind]
  rfl

/-- A run that is planned is a run of the chain of its settings. -/
theorem run_of_built (settled : (arguments.config world.disk).outcome = .ok config)
    (readied : arguments.folder world.disk systemTemp = .ok folder)
    (built : config.context world.disk arguments.base = .ok context) :
    let done := (config.chain folder).run context world
    (arguments.run systemTemp world).state = done.state ∧
      (arguments.run systemTemp world).report.outcome = done.report.outcome := by
  have planned : (arguments.plan world.disk systemTemp).outcome =
      .ok ⟨context, config.chain folder⟩ := by
    rw [plan_outcome, settled, Except.bind, planOf, readied]
    simp only [built, Except.map]
  simp [run, planned]

theorem built_of_planned {plan : Plan}
    (planned : (arguments.plan disk systemTemp).outcome = .ok plan) :
    ∃ config folder context, (arguments.config disk).outcome = .ok config ∧
      arguments.folder disk systemTemp = .ok folder ∧
      config.context disk arguments.base = .ok context := by
  rw [plan_outcome] at planned
  cases settled : (arguments.config disk).outcome with
  | error failure =>
      rw [settled] at planned
      contradiction
  | ok config =>
      rw [settled, Except.bind, planOf] at planned
      split at planned
      · contradiction
      · rename_i folder readied
        obtain ⟨context, built, -⟩ := exists_of_map_ok planned
        exact ⟨config, folder, context, rfl, readied, built⟩

end Arguments

/-- No command line generates a manifest if one of its flags, or the settings that it starts from,
rules that out. -/
theorem run_restrained (parsed : parse tempDir texts = .ok arguments)
    (ruled : Flag.restricted.Given texts ∨ Flag.noSynthesis.Given texts ∨
      ∃ start, (arguments.baseConfig world.disk).outcome = .ok start ∧
        (start.mode = .restricted ∨ start.synthesis = false)) :
    (arguments.run systemTemp world).state = world ∧
      ∀ config folder context, (arguments.config world.disk).outcome = .ok config →
        arguments.folder world.disk systemTemp = .ok folder →
        config.context world.disk arguments.base = .ok context →
        (arguments.run systemTemp world).report.outcome =
          ((Chain.reduced config.convention).run context world).report.outcome := by
  have ruled : arguments.restricted ∨ arguments.noSynthesis ∨
      ∃ start, (arguments.baseConfig world.disk).outcome = .ok start ∧ start.Restrained :=
    ruled.imp (parse_given parsed) (Or.imp_left (parse_given parsed))
  constructor
  · cases planned : (arguments.plan world.disk systemTemp).outcome with
    | error failure => exact Arguments.run_of_failed planned
    | ok plan =>
        obtain ⟨config, folder, context, settled, readied, built⟩ :=
          Arguments.built_of_planned planned
        rw [(Arguments.run_of_built settled readied built).1]
        have restrained := Arguments.config_restrained settled ruled
        exact (Config.chain_restrained restrained (Config.context_mode built) folder world).1
  · intro config folder context settled readied built
    rw [(Arguments.run_of_built settled readied built).2]
    have restrained := Arguments.config_restrained settled ruled
    exact (Config.chain_restrained restrained (Config.context_mode built) folder world).2

def settledWorld : World := ⟨Arguments.settledDisk, fun _ => default⟩

theorem run_restrained_by_file :
    ∃ arguments, parse (some "/w/t") ["p", "-D", "tsconfigs=q", "--json"] = .ok arguments ∧
      (arguments.run "/w" settledWorld).state = settledWorld ∧
      ∃ config context, (arguments.config Arguments.settledDisk).outcome = .ok config ∧
        (arguments.run "/w" settledWorld).report.outcome =
          ((Chain.reduced config.convention).run context settledWorld).report.outcome := by
  let arguments : Arguments :=
    { base? := some "p", properties := ["tsconfigs=q"], tempDir? := some "/w/t", json := true }
  have parsed : parse (some "/w/t") ["p", "-D", "tsconfigs=q", "--json"] = .ok arguments := by
    decide +kernel
  have read : (arguments.baseConfig Arguments.settledDisk).outcome.map Config.mode = .ok .restricted := by
    decide +kernel
  obtain ⟨start, started, mode⟩ := exists_of_map_ok read
  have restrained : (arguments.run "/w" settledWorld).state = settledWorld ∧ _ :=
    run_restrained parsed (.inr (.inr ⟨start, started, .inl mode⟩))
  have planned : (arguments.plan Arguments.settledDisk "/w").outcome.map (fun _ => ()) = .ok () := by
    decide +kernel
  obtain ⟨plan, planned, -⟩ := exists_of_map_ok planned
  obtain ⟨config, folder, context, settled, readied, built⟩ := Arguments.built_of_planned planned
  exact ⟨arguments, parsed, restrained.1, config, context, settled,
    restrained.2 config folder context settled readied built⟩

end CommandLine

end ManifestSearch
