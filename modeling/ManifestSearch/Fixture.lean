import ManifestSearch.TempFolder

/-!
A tree of files laid out below a new directory, which is removed at the end. A step that fails
may have made directories before it failed; they stay.
-/

namespace ManifestSearch

structure Fixture where
  root : String
deriving DecidableEq

namespace Fixture

inductive Breach where
  | parent (place : String) (fault : Fault)
  | file (place : String) (fault : Fault)
  | dir (place : String) (fault : Fault)
  | missing (place : String)
deriving DecidableEq

def Breach.message : Breach → String
  | parent place fault =>
      "TestTree::file: failed to create " ++ place ++ ": " ++ fault.text
  | file place fault => "TestTree::file: failed to write " ++ place ++ ": " ++ fault.text
  | dir place fault => "TestTree::dir: failed to create " ++ place ++ ": " ++ fault.text
  | missing place => "Expected file to exist: " ++ place

/-- What the name of the directory starts with. -/
def stem : String := ".tmp"

def make (systemTemp : String) (world : World) : Except Failure Fixture × World :=
  match TempFolder.makeFresh Disk.makeDir systemTemp stem "" world with
  | (.error failure, world) => (.error failure, world)
  | (.ok root, world) => (.ok ⟨root⟩, world)

/-- Where a text leads from the root of the tree. -/
def path (fixture : Fixture) (text : String) : String := RawText.join fixture.root text

/-- The text as a search spells the same place. -/
def spelled (fixture : Fixture) (text : String) : String :=
  let root := Text.dropEnd (· == '/') (Path.slashed fixture.root.toList)
  if text = "" then String.ofList root
  else String.ofList (root ++ '/' :: text.toList)

def file (fixture : Fixture) (text content : String) (disk : Disk) :
    Except Breach Unit × Disk :=
  let place := fixture.path text
  let (made, disk) : Except Breach Unit × Disk :=
    match RawText.parent? place with
    | none => (.ok (), disk)
    | some above =>
        match disk.makeDirs above with
        | (.ok (), disk) => (.ok (), disk)
        | (.error fault, disk) => (.error (.parent above fault), disk)
  match made with
  | .error breach => (.error breach, disk)
  | .ok () =>
      match disk.write place content with
      | .ok disk => (.ok (), disk)
      | .error fault => (.error (.file place fault), disk)

def files (fixture : Fixture) : List String → Disk → Except Breach Unit × Disk
  | [], disk => (.ok (), disk)
  | text :: rest, disk =>
      match fixture.file text "" disk with
      | (.error breach, disk) => (.error breach, disk)
      | (.ok (), disk) => fixture.files rest disk

def dir (fixture : Fixture) (text : String) (disk : Disk) : Except Breach Unit × Disk :=
  let place := fixture.path text
  match disk.makeDirs place with
  | (.ok (), disk) => (.ok (), disk)
  | (.error fault, disk) => (.error (.dir place fault), disk)

def expect (fixture : Fixture) (text : String) (disk : Disk) : Except Breach Unit :=
  if disk.found (fixture.path text) then .ok () else .error (.missing (fixture.path text))

def drop (fixture : Fixture) (disk : Disk) : Disk := disk.remove fixture.root

end Fixture

end ManifestSearch
