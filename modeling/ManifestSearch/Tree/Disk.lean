import ManifestSearch.Path
import ManifestSearch.Tree.Fault
import ManifestSearch.Tree.Listing
import ManifestSearch.Tree.RawText

/-!
A file system: a tree and a working directory. A text is resolved step by step from the root or
from the working directory; symbolic links are followed on the way, `..` goes to the directory
above the one reached, and a slash at the end asks for a directory. A working directory that is
taken away stays the working directory, without entries and out of reach from the root.

Nothing here fails for lack of permission or of room: every entry may be read, written and taken away.
-/

namespace ManifestSearch

structure Disk where
  root : Listing
  here : Location := []
  /-- Whether the working directory was taken away. A directory made anew at its place is
  another one. -/
  adrift : Bool := false
deriving DecidableEq, Inhabited

inductive Step where
  | stay
  | up
  | into (name : String)
deriving DecidableEq

/-- Where a text leads: to a node, to a free name in a directory, or to the working directory
after that was taken away. -/
inductive Spot where
  | taken (location : Location)
  | free (directory : Location) (name : String)
  | adrift
deriving DecidableEq

namespace Step

def ofPiece (piece : List Char) : Step :=
  if piece = ['.'] then stay
  else if piece = ['.', '.'] then up
  else into (String.ofList piece)

/-- The steps of a text, a slash at its end left aside. -/
def ofText (text : String) : List Step :=
  ((Text.pieces '/' text.toList).filter (· ≠ [])).map ofPiece

/-- The steps of a text; a slash at its end is one more step that stays. -/
def all (text : String) : List Step :=
  let steps := ofText text
  if text.toList.getLast? = some '/' ∧ steps ≠ [] then steps ++ [stay] else steps

end Step

namespace Disk

/-- A name holds at most this many bytes, and a path fewer than `pathLimit`. -/
def nameLimit : Nat := 255
def pathLimit : Nat := 4096

/-- A resolution follows at most this many links. -/
def linkLimit : Nat := 40

/-- Takes steps from a directory. `follow` goes on at a link, given the directory that holds it,
its target, and the steps that are left. A link at the end is itself the answer unless
`throughLast` asks for what it leads to. -/
def advance (root : Listing) (throughLast : Bool)
    (follow : Location → String → List Step → Except Fault Spot) :
    Location → List Step → Except Fault Spot
  | place, [] => .ok (.taken place)
  | place, .stay :: rest => advance root throughLast follow place rest
  | place, .up :: rest => advance root throughLast follow place.dropLast rest
  | place, .into name :: rest =>
      if name.utf8ByteSize > nameLimit then .error .nameTooLong
      else match root.at? (place ++ [name]) with
        | none => if rest = [] then .ok (.free place name) else .error .notFound
        | some (.dir _) => advance root throughLast follow (place ++ [name]) rest
        | some (.leaf (.file _)) =>
            if rest = [] then .ok (.taken (place ++ [name])) else .error .notDirectory
        | some (.leaf (.link target)) =>
            if rest = [] ∧ !throughLast then .ok (.taken (place ++ [name]))
            else follow place target rest

def travel (root : Listing) (throughLast : Bool) :
    Nat → Location → List Step → Except Fault Spot
  | 0 => advance root throughLast fun _ _ _ => .error .linkLoop
  | links + 1 => advance root throughLast fun place target rest =>
      travel root throughLast links (if startsAtRoot target then [] else place)
        (Step.all target ++ rest)

def isDirAt (root : Listing) (location : Location) : Bool :=
  match root.at? location with
  | some (.dir _) => true
  | _ => false

def depart (root : Listing) (throughLast : Bool) (start : Location) (steps : List Step) :
    Except Fault Spot :=
  if isDirAt root start then travel root throughLast linkLimit start steps
  else .error .notFound

/-- Takes steps from a working directory that was taken away. It has no entries, and `..` leads
to the directory that held it. -/
def drift (disk : Disk) (throughLast : Bool) : List Step → Except Fault Spot
  | [] => .ok .adrift
  | .stay :: rest => disk.drift throughLast rest
  | .up :: rest => depart disk.root throughLast disk.here.dropLast rest
  | .into _ :: _ => .error .notFound

def reachBy (disk : Disk) (throughLast : Bool) (text : String) (steps : List Step) :
    Except Fault Spot :=
  if text.toList.contains '\x00' then .error .nulInPath
  else if text = "" then .error .notFound
  else if text.utf8ByteSize ≥ pathLimit then .error .nameTooLong
  else if startsAtRoot text then depart disk.root throughLast [] steps
  else if disk.adrift then disk.drift throughLast steps
  else depart disk.root throughLast disk.here steps

def reach (disk : Disk) (throughLast : Bool) (text : String) : Except Fault Spot :=
  disk.reachBy throughLast text (Step.all text)

/-- The node that a text names, a link at its end not followed if `throughLast` is false. -/
def node (disk : Disk) (throughLast : Bool) (text : String) : Except Fault Node :=
  match disk.reach throughLast text with
  | .error fault => .error fault
  | .ok (.free _ _) => .error .notFound
  | .ok .adrift => .ok (.dir .nil)
  | .ok (.taken location) =>
      match disk.root.at? location with
      | some node => .ok node
      | none => .error .notFound

def found (disk : Disk) (text : String) : Bool :=
  match disk.node true text with
  | .ok _ => true
  | .error _ => false

def isFile (disk : Disk) (text : String) : Bool :=
  match disk.node true text with
  | .ok (.leaf (.file _)) => true
  | _ => false

def isDir (disk : Disk) (text : String) : Bool :=
  match disk.node true text with
  | .ok (.dir _) => true
  | _ => false

def read (disk : Disk) (text : String) : Except Fault String :=
  match disk.node true text with
  | .error fault => .error fault
  | .ok (.leaf (.file content)) => .ok content
  | .ok (.leaf (.link _)) => .error .linkLoop
  | .ok (.dir _) => .error .isDirectory

def locationText (location : Location) : List Char :=
  '/' :: Text.joined '/' (location.map String.toList)

/-- The text read from the working directory: blanked of `.` and of repeated slashes, with `..`
kept. Exactly two slashes in front are kept too. -/
def fromHere (disk : Disk) (text : String) : List Char :=
  let pieces := (Text.pieces '/' text.toList).filter fun piece => piece ≠ [] ∧ piece ≠ ['.']
  let body := Text.joined '/' pieces
  match Path.start text.toList with
  | .network => '/' :: '/' :: body
  | .rooted => '/' :: body
  | .relative =>
      let here := locationText disk.here
      if disk.here = [] then here ++ body
      else if body = [] then here
      else here ++ '/' :: body

/-- The canonical path of a text read from the working directory. Links are not followed. -/
def absolute (disk : Disk) (text : String) : Except Fault Path :=
  if text = "" then .error .emptyPath
  else if startsAtRoot text ∨ (!disk.adrift ∧ isDirAt disk.root disk.here) then
    .ok (Path.ofText (String.ofList (disk.fromHere text)))
  else .error .notFound

end Disk

end ManifestSearch
