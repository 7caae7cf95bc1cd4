import ManifestSearch.Convention
import ManifestSearch.HostMode
import ManifestSearch.Properties
import ManifestSearch.Selector
import ManifestSearch.Toml.Document

/-!
The settings of a search, and how a document states them. Every setting may be left out; a
setting of an unknown name is refused.
-/

namespace ManifestSearch

structure Config where
  mode : HostMode := .standard
  /-- Whether a manifest may be generated where none is found. -/
  synthesis : Bool := true
  extensions : List String := ["ts", "tsx"]
  convention : Convention := .standard
  properties : Properties := .empty
  compilerOptions : Keyed Json := []
deriving BEq

namespace Config

def standard : Config := {}

def fileName : String := "manifest-resolver.toml"

def declaration? (value : Toml) : Option Declaration :=
  match value with
  | .string text => some (.joined text)
  | _ => value.strings?.map .listed

def properties? (value : Toml) : Option Properties := do
  let entries ← value.entries?
  let declared ← entries.mapM fun entry => (declaration? entry.2).map fun held => (entry.1, held)
  return Properties.ofDeclarations declared

def compilerOptions? (value : Toml) : Option (Keyed Json) :=
  value.entries?.map Toml.entriesToJson

def withSetting? (config : Config) (name : String) (value : Toml) : Option Config :=
  match name with
  | "mode" => (HostMode.ofToml? value).map fun mode => { config with mode }
  | "synthesis" => value.boolean?.map fun synthesis => { config with synthesis }
  | "extensions" => value.strings?.map fun extensions => { config with extensions }
  | "convention" =>
      (Convention.ofToml? value).map fun convention => { config with convention }
  | "properties" => (properties? value).map fun properties => { config with properties }
  | "compiler_options" =>
      (compilerOptions? value).map fun options => { config with compilerOptions := options }
  | _ => none

/-- The settings that a document states, over the standard ones. -/
def parse? (text : String) : Option Config := do
  let document ← Toml.parse? text
  let settings ← document.entries?
  settings.foldlM (fun config setting => config.withSetting? setting.1 setting.2) standard

def selector (config : Config) : Selector :=
  .byExtension config.extensions [config.convention.excludedDir]

end Config

end ManifestSearch
