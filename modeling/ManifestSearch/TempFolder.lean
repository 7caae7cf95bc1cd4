import ManifestSearch.Failure
import ManifestSearch.Tree.World

/-!
Folders for generated files. Every file gets a new name with a random part, so that no file is
ever overwritten. A folder of its own is removed at the end with all that is in it; a folder in a
given directory leaves everything where it is.
-/

namespace ManifestSearch

structure TempFolder where
  dir : Path
  /-- The directory that the folder made for itself, if it did. -/
  owned : Option String := none
deriving DecidableEq

namespace TempFolder

/-- A folder in a directory, which need not exist yet. -/
def inDir (disk : Disk) (text : String) : Except Failure TempFolder :=
  match disk.absolute text with
  | .ok dir => .ok { dir }
  | .error fault => .error (.tree text fault)

def ownedStem : String := "manifest-resolver-"

def place (directory stem ending : String) (tag : Tag) : String :=
  RawText.join directory (stem ++ tag.text ++ ending)

/-- Draws names in a directory and makes a file or directory under the first that is free. -/
def makeFresh (make : Disk → String → Except Fault Disk) (directory stem ending : String)
    (world : World) : Except Failure String × World :=
  match world.makeNew make (place directory stem ending) World.drawLimit with
  | (.ok made, world) => (.ok made, world)
  | (.error (_, .tooManyFiles), world) =>
      (.error (.allocation directory directory .tooManyFiles), world)
  | (.error (attempt, fault), world) => (.error (.allocation directory attempt fault), world)

def make (systemTemp : String) (world : World) : Except Failure TempFolder × World :=
  match makeFresh Disk.makeDir systemTemp ownedStem "" world with
  | (.error failure, world) => (.error failure, world)
  | (.ok made, world) =>
      match world.disk.absolute made with
      | .ok dir => (.ok { dir, owned := some made }, world)
      | .error fault =>
          (.error (.tree made fault), { world with disk := world.disk.remove made })

/-- What comes of filling the file that was made: its path, or after a fault nothing, and the file is
taken away again. -/
def settle (fill : Except (String × Fault) String) :
    Except Failure String × World → Except Failure Path × World
  | (.error failure, world) => (.error failure, world)
  | (.ok made, world) =>
      match fill with
      | .ok _ => (.ok (Path.ofText made), world)
      | .error (_, fault) => (.error (.tree made fault), { world with disk := world.disk.remove made })

/-- Makes the directory of the folder if it misses, and in it a new file that is filled step by step:
with a whole content, or with a part of one up to a fault. -/
def allocate (folder : TempFolder) (stem ending : String) (fill : Except (String × Fault) String)
    (world : World) : Except Failure Path × World :=
  match world.disk.makeDirs folder.dir.text with
  | (.error fault, disk) => (.error (.tree folder.dir.text fault), { world with disk })
  | (.ok (), disk) =>
      let written := match fill with
        | .ok content => content
        | .error (part, _) => part
      settle fill (makeFresh (fun disk text => disk.create text written) folder.dir.text stem ending
        { world with disk })

/-- Makes a new file with a whole content. -/
def writeNew (folder : TempFolder) (stem ending content : String) (world : World) :
    Except Failure Path × World :=
  folder.allocate stem ending (.ok content) world

/-- Ends the use of a folder. -/
def drop (folder : TempFolder) (disk : Disk) : Disk :=
  match folder.owned with
  | some made => disk.remove made
  | none => disk

end TempFolder

end ManifestSearch
