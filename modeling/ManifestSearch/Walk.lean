import ManifestSearch.Failure
import ManifestSearch.Tree.Disk

/-!
The files below a place, in the order of their names. A link to a file is listed under its own
name, and a link to a directory is not entered, except that a walk may start at one. Directories
below the start with a skipped name are left out. A directory is opened by its whole text; one
whose text is too long ends the walk. Every directory may be read, so nothing else ends a walk that
has begun, and every name is a Unicode text.
-/

namespace ManifestSearch

structure Walk where
  root : Path
  skipped : List String := []
deriving DecidableEq

namespace Walk

/-- What a walk comes upon: the files up to its end, or up to a failure that ends it early. -/
structure Found where
  files : List Path := []
  failure : Option Failure := none
deriving DecidableEq

namespace Found

def cons (file : Path) (found : Found) : Found := { found with files := file :: found.files }

/-- Goes on with what comes next, unless a failure came first. -/
def append (found next : Found) : Found :=
  match found.failure with
  | some _ => found
  | none => ⟨found.files ++ next.files, next.failure⟩

def failed (failure : Failure) : Found := ⟨[], some failure⟩

def outcome (found : Found) : Except Failure (List Path) :=
  match found.failure with
  | some failure => .error failure
  | none => .ok found.files

end Found

/-- Whether an entry counts as a file: a file, or a link that leads to one. -/
def counts (disk : Disk) (text : String) : Leaf → Bool
  | .file _ => true
  | .link _ => disk.isFile text

/-- Opens a directory by its text; `inside` is what the walk comes upon in it. -/
def enter (text : String) (inside : Found) : Found :=
  if text.utf8ByteSize ≥ Disk.pathLimit then .failed (.tree text .nameTooLong) else inside

/-- What a walk comes upon in a listing; `above` is the text of the directory that holds it. -/
def below (disk : Disk) (skipped : List String) (above : String) : Listing → Found
  | .nil => {}
  | .leaf name held rest =>
      let text := RawText.join above name
      if counts disk text held then (below disk skipped above rest).cons (Path.ofText text)
      else below disk skipped above rest
  | .dir name inside rest =>
      let text := RawText.join above name
      if name ∈ skipped then below disk skipped above rest
      else (enter text (below disk skipped text inside)).append (below disk skipped above rest)

def run (walk : Walk) (disk : Disk) : Found :=
  let text := walk.root.text
  match disk.node false text with
  | .error fault => .failed (.tree text fault)
  | .ok (.dir inside) => below disk walk.skipped text inside
  | .ok (.leaf (.file _)) => ⟨[Path.ofText text], none⟩
  | .ok (.leaf (.link _)) =>
      match disk.node true text with
      | .error fault => .failed (.tree text fault)
      | .ok (.dir inside) => below disk walk.skipped text inside
      | .ok (.leaf _) => ⟨[Path.ofText text], none⟩

def files (walk : Walk) (disk : Disk) : Except Failure (List Path) := (walk.run disk).outcome

end Walk

end ManifestSearch
