import ManifestSearch.Text.Quoted
import ManifestSearch.Tree.Fault

/-!
Why a search stops. Finding nothing is no failure.
-/

namespace ManifestSearch

/-- `tree` is a fault met while walking or while readying the folder of generated files,
`allocation` one met while making the file `attempt` in a folder, and `setup` one met before the
search starts. The others lie in what the user wrote. -/
inductive Failure where
  | tree (place : String) (fault : Fault)
  | allocation (folder attempt : String) (fault : Fault)
  | setup (place : String) (fault : Fault)
  | config (place : String)
  | property (input : String)
  | option (input : String)
deriving DecidableEq, Inhabited

namespace Failure

def atPlace (place : String) (fault : Fault) : String :=
  "I/O error at " ++ place ++ ": " ++ fault.text

def message : Failure → String
  | tree place fault => atPlace place fault
  | allocation folder attempt fault =>
      atPlace folder fault ++ " at path " ++ Text.quoted attempt
  | setup place fault => atPlace place fault
  | config place => "Failed to parse config at " ++ place
  | property input => "Invalid property override '" ++ input ++ "': expected KEY=VALUE"
  | option input => "Invalid option '" ++ input ++ "': expected KEY=VALUE"

end Failure

end ManifestSearch
