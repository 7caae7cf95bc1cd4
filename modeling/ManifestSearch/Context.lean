import ManifestSearch.Failure
import ManifestSearch.HostMode
import ManifestSearch.Properties
import ManifestSearch.Tree.Disk

/-!
What one search starts from. No strategy changes it.
-/

namespace ManifestSearch

structure Context where
  base : Path
  properties : Properties := .empty
  mode : HostMode := .standard
deriving DecidableEq

/-- The context of a directory, which need not exist, read from the working directory. -/
def Context.at? (disk : Disk) (base : String) (properties : Properties) (mode : HostMode) :
    Except Failure Context :=
  match disk.absolute base with
  | .ok path => .ok { base := path, properties, mode }
  | .error fault => .error (.setup base fault)

end ManifestSearch
