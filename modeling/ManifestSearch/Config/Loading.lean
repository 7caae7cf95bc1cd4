import ManifestSearch.Chain
import ManifestSearch.Config

/-!
Settings from a file, and the context and the chain that they describe.
-/

namespace ManifestSearch.Config

/-- The settings of a file, which has to exist. -/
def load (disk : Disk) (place : String) : Report Config :=
  let outcome : Except Failure Config :=
    match disk.read place with
    | .error fault => .error (.setup place fault)
    | .ok content =>
        match parse? content with
        | some config => .ok config
        | none => .error (.config place)
  ⟨outcome, [.loadingConfig place]⟩

/-- The settings of a directory; the standard ones if it has no file for them. -/
def discover (disk : Disk) (base : String) : Report Config :=
  let place := RawText.join base fileName
  if disk.isFile place then load disk place else ⟨.ok standard, [.noConfig place]⟩

def context (config : Config) (disk : Disk) (base : String) : Except Failure Context :=
  Context.at? disk base config.properties config.mode

def synthesisIn (config : Config) (folder : TempFolder) : Synthesis where
  folder := folder
  selector := config.selector
  options := config.compilerOptions
  affixes := config.convention.affixes

def chain (config : Config) (folder : TempFolder) : Chain World :=
  if config.synthesis then .full config.convention (config.synthesisIn folder)
  else .reduced config.convention

end ManifestSearch.Config
