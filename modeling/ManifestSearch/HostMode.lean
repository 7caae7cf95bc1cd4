import ManifestSearch.Json.Reader
import ManifestSearch.Toml.Value

/-!
The two modes of the program that a search runs for, and the ways to write a mode.
-/

namespace ManifestSearch

/-- A restricted host cannot keep temporary files. -/
inductive HostMode where
  | standard
  | restricted
deriving DecidableEq, Inhabited

namespace HostMode

def allowsTempFiles : HostMode → Bool
  | .standard => true
  | .restricted => false

def name : HostMode → String
  | .standard => "standard"
  | .restricted => "restricted"

def ofName? (name : String) : Option HostMode :=
  if name = "standard" then some .standard
  else if name = "restricted" then some .restricted
  else none

/-- A mode is its name, or an object with that name for one member that is `null`. -/
def ofJson? (text : String) : Option HostMode :=
  match Json.outline? text with
  | some (.scalar (.string name)) => ofName? name
  | some (.members [(name, value)]) =>
      match Json.parseWithin? Json.depthLimit value with
      | some .null => ofName? name
      | _ => none
  | _ => none

/-- A mode is its name, or a table with that name for one entry that holds nothing. -/
def ofToml? : Toml → Option HostMode
  | .string name => ofName? name
  | .table _ [(name, .table _ [])] => ofName? name
  | .table _ [(name, .array _ [])] => ofName? name
  | _ => none

end HostMode

end ManifestSearch
