import ManifestSearch.Text.Pieces

/-!
Slash paths in one spelling. A path is the text that every answer shows; `ofText` brings any
spelling into the canonical one (`Canonical`), so that two spellings of a place are one value.
Symbolic links play no part here: `..` takes back the segment before it. A path of the file system is
taken as the Unicode text that it is; one that is none would be shown with replacement characters, and
has no counterpart here.
-/

namespace ManifestSearch

structure Path where
  text : String
deriving DecidableEq, Inhabited

namespace Path

/-- How a text starts: not at a root, at the root, or at a network root, which is written with
exactly two slashes. -/
inductive Start where
  | relative
  | rooted
  | network
deriving DecidableEq

/-- Both slashes separate segments, and the forward one is written. -/
def slashed (text : List Char) : List Char :=
  text.map fun char => if char = '\\' then '/' else char

def start : List Char → Start
  | '/' :: '/' :: '/' :: _ => .rooted
  | '/' :: '/' :: _ => .network
  | '/' :: _ => .rooted
  | _ => .relative

/-- A drive such as `C:`, which `..` never takes back. -/
def isDrive : List Char → Bool
  | [letter, ':'] => letter.isAlpha
  | _ => false

/-- Takes one more piece onto the segments kept so far, the last one first. -/
def keep (kept : List (List Char)) (piece : List Char) : List (List Char) :=
  if piece = [] ∨ piece = ['.'] then kept
  else if piece = ['.', '.'] then
    match kept with
    | [] => []
    | last :: before => if isDrive last then kept else before
  else piece :: kept

def settled (pieces : List (List Char)) : List (List Char) :=
  (pieces.foldl keep []).reverse

/-- The text of a list of segments. An empty relative path is `.`, and a drive alone keeps a
slash behind it. -/
def spelled (start : Start) (segments : List (List Char)) : List Char :=
  let body := Text.joined '/' segments
  match start with
  | .network => '/' :: '/' :: body
  | .rooted => '/' :: body
  | .relative =>
      match segments with
      | [] => ['.']
      | [only] => if isDrive only then only ++ ['/'] else only
      | _ => body

def clean (text : List Char) : List Char :=
  spelled (start text) (settled (Text.pieces '/' text))

/-- The path that a text names, whatever its spelling. -/
def ofText (text : String) : Path :=
  ⟨String.ofList (clean (slashed text.toList))⟩

/-- A path whose text is the only spelling of its place. -/
def Canonical (path : Path) : Prop := ofText path.text = path

instance (path : Path) : Decidable path.Canonical := inferInstanceAs (Decidable (_ = _))

def segments (path : Path) : List String :=
  ((Text.pieces '/' path.text.toList).filter (· ≠ [])).map String.ofList

def hasSegment (path : Path) (name : String) : Bool :=
  name ∈ path.segments

def isAbsolute (path : Path) : Bool :=
  match path.text.toList with
  | '/' :: _ => true
  | text => isDrive (text.takeWhile (· ≠ '/'))

/-- Goes on from a path. Of a text that starts with a slash, the slash only separates. -/
def join (path : Path) (text : String) : Path :=
  let front := path.text.toList
  let between := if front.getLast? = some '/' then [] else ['/']
  ⟨String.ofList (clean (front ++ between ++ slashed text.toList))⟩

def trimmed (path : Path) : List Char :=
  Text.dropEnd (· == '/') path.text.toList

/-- The path up to its last slash, a slash at the end left aside. -/
def parent? (path : Path) : Option Path :=
  match Text.cutLast? '/' path.trimmed with
  | none => none
  | some ([], _) => some ⟨"/"⟩
  | some (before, _) => some ⟨String.ofList before⟩

/-- The last segment; a root and `.` have none. -/
def fileName? (path : Path) : Option String :=
  let name := match Text.cutLast? '/' path.trimmed with
    | none => path.trimmed
    | some (_, after) => after
  if name = [] ∨ name = ['.'] then none else some (String.ofList name)

/-- What follows the last dot of a name, unless the name begins with that dot. -/
def extensionOf? (name : String) : Option String :=
  match Text.cutLast? '.' name.toList with
  | some (_ :: _, extension) => some (String.ofList extension)
  | _ => none

def extension? (path : Path) : Option String :=
  path.fileName?.bind extensionOf?

/-- The text of a path below `base`, without a slash in front; empty for `base` itself. -/
def relativeTo? (path base : Path) : Option String :=
  match Text.after? base.trimmed path.text.toList with
  | some [] => some ""
  | some ('/' :: rest) => some (String.ofList rest)
  | _ => none

/-- Paths are ordered by the characters of their texts. -/
protected def compare (left right : Path) : Ordering :=
  if left.text < right.text then .lt else if left.text = right.text then .eq else .gt

end Path

end ManifestSearch
