import ManifestSearch.Proofs.CommandLine.BaseSettings
import ManifestSearch.Proofs.Keyed.Insertion
import ManifestSearch.Proofs.Text.Assignment

/-!
The settings that a command line leaves a search with. They are those of the file, or the standard
ones, with what the arguments declare laid over them; of the arguments that name one key the last
one holds.
-/

namespace ManifestSearch.CommandLine

variable {arguments : Arguments} {disk : Disk} {start config : Config} {left right : List String}
  {key : String} {failure : Failure}

/-! What a list of settings names. -/

def declaredValues (input : String) : List String :=
  Properties.tidied (Text.commaItems (Text.valuePart input))

def optionOf (input : String) : Json := optionValue (Text.valuePart input)

def firstRefused? (inputs : List String) : Option String :=
  inputs.find? fun input => ¬Text.IsSetting input

def lastNaming? (key : String) (inputs : List String) : Option String :=
  (inputs.filter fun input => Text.keyPart input = key).getLast?

theorem firstRefused?_cons (input : String) (inputs : List String) :
    firstRefused? (input :: inputs) =
      if Text.IsSetting input then firstRefused? inputs else some input := by
  by_cases setting : Text.IsSetting input
  · simp [firstRefused?, setting]
  · simp [firstRefused?, setting]

theorem get?_insertAll_settings {α : Type} (map : Keyed α) (value : String → α)
    (inputs : List String) (key : String) :
    (map.insertAll (inputs.map fun input => (Text.keyPart input, value input))).get? key =
      ((lastNaming? key inputs).map value).or (map.get? key) := by
  rw [Keyed.get?_insertAll, lastNaming?, List.filter_map, List.getLast?_map, Option.map_map]
  simp only [Function.comp_def]

/-! The two lists of settings on a command line. -/

theorem declareAll_eq (config : Config) (inputs : List String) :
    declareAll config inputs =
      match firstRefused? inputs with
      | some input => .error (.property input)
      | none => .ok { config with
          properties := ⟨config.properties.entries.insertAll
            (inputs.map fun input => (Text.keyPart input, declaredValues input))⟩ } := by
  induction inputs generalizing config with
  | nil => rfl
  | cons input inputs ih =>
      rw [declareAll, Properties.applyOverride?, Text.assignment?_eq, firstRefused?_cons]
      by_cases setting : Text.IsSetting input
      · rw [if_pos setting, if_pos setting]
        simp only [Option.map_some, ih, List.map_cons, Keyed.insertAll_cons]
        rfl
      · rw [if_neg setting, if_neg setting]
        rfl

theorem setAll_eq (config : Config) (inputs : List String) :
    setAll config inputs =
      match firstRefused? inputs with
      | some input => .error (.option input)
      | none => .ok { config with
          compilerOptions := config.compilerOptions.insertAll
            (inputs.map fun input => (Text.keyPart input, optionOf input)) } := by
  induction inputs generalizing config with
  | nil => rfl
  | cons input inputs ih =>
      rw [setAll, Text.assignment?_eq, firstRefused?_cons]
      by_cases setting : Text.IsSetting input
      · rw [if_pos setting, if_pos setting]
        simp only [ih, List.map_cons, Keyed.insertAll_cons]
        rfl
      · rw [if_neg setting, if_neg setting]

namespace Arguments

/-- The settings `config` are `start` with what the arguments say laid over them. -/
structure Adjusts (arguments : Arguments) (start config : Config) : Prop where
  properties : ∀ key, config.properties.get? key =
    ((lastNaming? key arguments.properties).map declaredValues).or (start.properties.get? key)
  compilerOptions : ∀ key, config.compilerOptions.get? key =
    ((lastNaming? key arguments.options).map optionOf).or (start.compilerOptions.get? key)
  mode : config.mode = if arguments.restricted then .restricted else start.mode
  synthesis : config.synthesis = (start.synthesis && !arguments.noSynthesis)
  extensions : config.extensions =
    if arguments.extensions = [] then start.extensions else arguments.extensions.map bareExtension
  convention : config.convention = start.convention

theorem adjusts_of_adjust (adjusted : arguments.adjust start = .ok config) :
    arguments.Adjusts start config := by
  rw [adjust, declareAll_eq] at adjusted
  cases declared : firstRefused? arguments.properties with
  | some input =>
      rw [declared] at adjusted
      contradiction
  | none =>
      simp only [declared, setAll_eq] at adjusted
      cases chosen : firstRefused? arguments.options with
      | some input =>
          rw [chosen] at adjusted
          contradiction
      | none =>
          simp only [chosen, Except.ok.injEq] at adjusted
          subst adjusted
          exact
            { properties := get?_insertAll_settings _ declaredValues arguments.properties
              compilerOptions := get?_insertAll_settings _ optionOf arguments.options
              mode := rfl
              synthesis := rfl
              extensions := by simp [narrow, List.isEmpty_iff]
              convention := rfl }

end Arguments

end ManifestSearch.CommandLine
