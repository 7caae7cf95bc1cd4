import ManifestSearch.Glob.Token
import ManifestSearch.HostMode
import ManifestSearch.Path
import ManifestSearch.Text.Quoted

/-!
What a search reports on its way. An event carries the facts; its level, its message and its
named fields are read off them.
-/

namespace ManifestSearch

inductive Event.Level where
  | debug
  | info
  | warn
deriving DecidableEq

inductive Event where
  | verbose
  | loadingConfig (place : String)
  | noConfig (place : String)
  | searching (strategies : List String) (base : Path)
  | trying (strategy : String)
  | resolved (strategy : String) (count : Nat)
  | noManifest (base : Path)
  | bothKeys (used ignored : String)
  | readingProperty (key : String) (patterns : List String)
  | foundDeclared (files : List Path)
  | foundNamed (fileName : String) (files : List Path)
  | excludedBase (base : Path) (excluded : String)
  | readingPattern (pattern : String) (base : Path)
  | noFile (pattern : String)
  | invalidPattern (pattern glob : String) (reason : Glob.Reason)
  | noTempFiles (mode : HostMode)
  | generated (path : Path) (count : Nat)
deriving DecidableEq

namespace Event

def Level.name : Level → String
  | debug => "DEBUG"
  | info => "INFO"
  | warn => "WARN"

def level : Event → Level
  | readingProperty _ _ | foundDeclared _ | foundNamed _ _ | excludedBase _ _ => .info
  | invalidPattern _ _ _ | noTempFiles _ => .warn
  | _ => .debug

def countText (files : List Path) (kind : String) : String :=
  "Found " ++ Nat.repr files.length ++ " " ++ kind ++ " file(s)"

def message : Event → String
  | verbose => "Verbose mode enabled"
  | loadingConfig _ => "Loading resolver config"
  | noConfig _ => "No resolver config found; using defaults"
  | searching _ _ => "Resolving manifests"
  | trying _ => "Trying manifest resolution strategy"
  | resolved _ _ => "Manifests resolved"
  | noManifest _ => "No manifest available"
  | bothKeys _ _ => "Both manifest path properties are set; using the primary key"
  | readingProperty _ _ => "Resolving manifest files from property"
  | foundDeclared files => countText files "manifest"
  | foundNamed fileName files => countText files fileName
  | excludedBase _ _ => "Base directory lies inside an excluded directory; skipping lookup"
  | readingPattern _ _ => "Resolving file pattern"
  | noFile _ => "No file at literal path and no wildcard present"
  | invalidPattern _ _ _ => "Ignoring invalid file pattern"
  | noTempFiles _ => "Generating a temporary manifest is not supported in this host mode"
  | generated _ _ => "Using generated manifest file"

def chainText (strategies : List String) : String :=
  "ResolutionChain \x7b strategies: " ++ Text.quotedList strategies ++ " \x7d"

def fileFields (files : List Path) : List (String × String) :=
  [("count", Nat.repr files.length), ("files", Text.quotedList (files.map Path.text))]

def fields : Event → List (String × String)
  | verbose => []
  | loadingConfig place | noConfig place => [("path", Text.quoted place)]
  | searching strategies base =>
      [("chain", chainText strategies), ("base_dir", base.text)]
  | trying strategy => [("strategy", strategy)]
  | resolved strategy count => [("strategy", strategy), ("count", Nat.repr count)]
  | noManifest base => [("base_dir", base.text)]
  | bothKeys used ignored => [("used", used), ("ignored", ignored)]
  | readingProperty key patterns =>
      [("property", key), ("patterns", String.intercalate "," patterns)]
  | foundDeclared files | foundNamed _ files => fileFields files
  | excludedBase base excluded => [("base_dir", base.text), ("excluded_dir", excluded)]
  | readingPattern pattern base => [("pattern", pattern), ("base", base.text)]
  | noFile pattern => [("pattern", pattern)]
  | invalidPattern pattern glob reason =>
      [("pattern", pattern), ("error", "error parsing glob '" ++ glob ++ "': " ++ reason.text)]
  | noTempFiles mode => [("host_mode", mode.name)]
  | generated path count => [("path", path.text), ("files", Nat.repr count)]

def line (event : Event) : String :=
  event.level.name ++ " " ++ event.message ++
    String.join (event.fields.map fun field => " " ++ field.1 ++ "=" ++ field.2)

end Event

end ManifestSearch
