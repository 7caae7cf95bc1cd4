import ManifestSearch.Tree.Disk
import ManifestSearch.Tree.RawText

/-!
Changes to a file system. An operation that can fail half way answers the tree it leaves behind
along with its fault.
-/

namespace ManifestSearch

namespace Disk

def putAt (disk : Disk) (directory : Location) (name : String) (node : Node) : Disk :=
  { disk with root := disk.root.change (Listing.put name node) directory }

def makeDir (disk : Disk) (text : String) : Except Fault Disk :=
  match disk.reachBy false text (Step.ofText text) with
  | .error fault => .error fault
  | .ok (.taken _) | .ok .adrift => .error .exists
  | .ok (.free directory name) => .ok (disk.putAt directory name (.dir .nil))

/-- Makes the first of a list of directories, each inside the next, and those that miss. -/
def makeThrough (disk : Disk) : List String → Except Fault Unit × Disk
  | [] => (.ok (), disk)
  | text :: above =>
      match disk.makeDir text with
      | .ok disk => (.ok (), disk)
      | .error .notFound =>
          match disk.makeThrough above with
          | (.error fault, disk) => (.error fault, disk)
          | (.ok (), disk) =>
              match disk.makeDir text with
              | .ok disk => (.ok (), disk)
              | .error fault =>
                  if disk.isDir text then (.ok (), disk) else (.error fault, disk)
      | .error fault => if disk.isDir text then (.ok (), disk) else (.error fault, disk)

def makeDirs (disk : Disk) (text : String) : Except Fault Unit × Disk :=
  disk.makeThrough (RawText.ancestors (text.length + 1) text)

/-- Whether a text ends in a slash that is not the root. -/
def asksForDir (text : String) : Bool :=
  text.toList.getLast? = some '/' && Step.ofText text ≠ []

/-- Where a file named by a text would be written. -/
def fileSpot (disk : Disk) (throughLast : Bool) (text : String) : Except Fault Spot :=
  if asksForDir text then
    match disk.reachBy false text (Step.ofText text) with
    | .error fault => .error fault
    | .ok _ => .error .isDirectory
  else disk.reach throughLast text

/-- Makes a file with a content under a name that nothing holds yet. -/
def create (disk : Disk) (text content : String) : Except Fault Disk :=
  match disk.fileSpot false text with
  | .error fault => .error fault
  | .ok (.taken _) | .ok .adrift => .error .exists
  | .ok (.free directory name) => .ok (disk.putAt directory name (.leaf (.file content)))

/-- Writes a file, in place of its old content if it has one. -/
def write (disk : Disk) (text content : String) : Except Fault Disk :=
  match disk.fileSpot true text with
  | .error fault => .error fault
  | .ok (.free directory name) => .ok (disk.putAt directory name (.leaf (.file content)))
  | .ok .adrift => .error .isDirectory
  | .ok (.taken location) =>
      match disk.root.at? location, location.getLast? with
      | some (.leaf _), some name =>
          .ok (disk.putAt location.dropLast name (.leaf (.file content)))
      | _, _ => .error .isDirectory

def link (disk : Disk) (text target : String) : Except Fault Disk :=
  match disk.reach false text with
  | .error fault => .error fault
  | .ok (.taken _) | .ok .adrift => .error .exists
  | .ok (.free directory name) => .ok (disk.putAt directory name (.leaf (.link target)))

def eraseAt (disk : Disk) (location : Location) : Disk :=
  match location.getLast? with
  | some name =>
      { disk with
        root := disk.root.change (Listing.erase name) location.dropLast
        adrift := disk.adrift || location.isPrefixOf disk.here }
  | none => disk

/-- Takes away a file, a link, or a directory with all it holds. -/
def remove (disk : Disk) (text : String) : Disk :=
  match disk.reach false text with
  | .ok (.taken location) => disk.eraseAt location
  | _ => disk

end Disk

end ManifestSearch
