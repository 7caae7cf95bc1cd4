import ManifestSearch.CommandLine.Arguments
import ManifestSearch.Config.Loading

/-!
The search that a command line asks for: the settings of the file with the changes that the
arguments make to them, and the run of the chain that they describe.
-/

namespace ManifestSearch.CommandLine

def declareAll (config : Config) : List String → Except Failure Config
  | [] => .ok config
  | input :: rest =>
      match config.properties.applyOverride? input with
      | none => .error (.property input)
      | some properties => declareAll { config with properties } rest

/-- The value of a compiler option: what the text denotes, or the text itself. -/
def optionValue (raw : String) : Json := (Json.parse? raw).getD (.string raw)

def setAll (config : Config) : List String → Except Failure Config
  | [] => .ok config
  | input :: rest =>
      match Text.assignment? input with
      | none => .error (.option input)
      | some (key, raw) =>
          let options := config.compilerOptions.insert key (optionValue raw)
          setAll { config with compilerOptions := options } rest

/-- An extension as it is compared, without dots in front. -/
def bareExtension (extension : String) : String :=
  String.ofList (extension.toList.dropWhile (· == '.'))

namespace Arguments

/-- Applies the flags and the list of extensions. Flags only ever take away. -/
def narrow (arguments : Arguments) (config : Config) : Config :=
  { config with
    mode := if arguments.restricted then .restricted else config.mode
    synthesis := config.synthesis && !arguments.noSynthesis
    extensions :=
      if arguments.extensions.isEmpty then config.extensions
      else arguments.extensions.map bareExtension }

def adjust (arguments : Arguments) (config : Config) : Except Failure Config :=
  match declareAll config arguments.properties with
  | .error failure => .error failure
  | .ok declared => setAll (arguments.narrow declared) arguments.options

def baseConfig (arguments : Arguments) (disk : Disk) : Report Config :=
  match arguments.config? with
  | some place => Config.load disk place
  | none => Config.discover disk arguments.base

def config (arguments : Arguments) (disk : Disk) : Report Config :=
  (arguments.baseConfig disk).bind fun config => .ofExcept (arguments.adjust config)

def folder (arguments : Arguments) (disk : Disk) (systemTemp : String) :
    Except Failure TempFolder :=
  TempFolder.inDir disk (arguments.tempDir?.getD systemTemp)

structure Plan where
  context : Context
  chain : Chain World

def planOf (arguments : Arguments) (disk : Disk) (systemTemp : String) (config : Config) :
    Except Failure Plan :=
  match arguments.folder disk systemTemp with
  | .error failure => .error failure
  | .ok folder =>
      (config.context disk arguments.base).map fun context => ⟨context, config.chain folder⟩

def plan (arguments : Arguments) (disk : Disk) (systemTemp : String) : Report Plan :=
  (arguments.config disk).bind fun config =>
    .ofExcept (arguments.planOf disk systemTemp config)

def run (arguments : Arguments) (systemTemp : String) (world : World) : Reply World :=
  let planned := arguments.plan world.disk systemTemp
  match planned.outcome with
  | .error failure => ⟨⟨.error failure, planned.events⟩, world⟩
  | .ok plan =>
      let ended := plan.chain.run plan.context world
      let searching := Event.searching plan.chain.names plan.context.base
      ⟨ended.report.after (planned.events ++ [searching]), ended.state⟩

end Arguments

/-- The printed list of manifests: a line for each, or one array. -/
def render (json : Bool) (files : List Path) : String :=
  if json then (Json.strings (files.map Path.text)).text ++ "\n"
  else String.join (files.map fun file => file.text ++ "\n")

end ManifestSearch.CommandLine
