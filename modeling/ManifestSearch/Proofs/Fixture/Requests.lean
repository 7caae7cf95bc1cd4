import ManifestSearch.Fixture
import ManifestSearch.Proofs.Path.Decomposition
import ManifestSearch.Proofs.Tree.Laying

/-!
What is asked of a tree that is laid out. A place is told by the names on the way to it (`Rel`), and a
request for a file or a directory there is refused exactly if a file stands on the way, or, for a file,
a directory in its place. A request that is refused changes nothing (`Request.run_below`).
-/

namespace ManifestSearch

open ManifestSearch.Disk (Vacant Fits isDirAt isDirAt_iff)
open ManifestSearch.Path (IsSegment)

namespace Fixture

/-- A place below the root of a tree: the names on the way to it, which paths spell as they are. -/
structure Rel where
  names : Location
  occupied : names ≠ []
  valid : ∀ name ∈ names, IsEntryName name
  tame : ∀ name ∈ names, IsTame name

def Rel.text (rel : Rel) : String := String.ofList (Text.joined '/' (segmentsOf rel.names))

inductive Request where
  | file (rel : Rel) (content : String)
  | dir (rel : Rel)

namespace Request

def rel : Request → Rel
  | file rel _ => rel
  | dir rel => rel

def run (fixture : Fixture) : Request → Disk → Except Breach Unit × Disk
  | file rel content, disk => fixture.file rel.text content disk
  | dir rel, disk => fixture.dir rel.text disk

/-- A file is where a directory has to be, or a directory where a file has to be. -/
def Blocked (fixture : Fixture) (disk : Disk) : Request → Prop
  | file rel _ => (∃ above : Rel, above.names <+: rel.names ∧ above.names ≠ rel.names ∧
      disk.isFile (fixture.path above.text)) ∨ disk.isDir (fixture.path rel.text)
  | dir rel => ∃ above : Rel, above.names <+: rel.names ∧ disk.isFile (fixture.path above.text)

end Request

variable {fixture : Fixture} {disk : Disk} {directory : Location} {name : String} {inside : Listing}
  {rel : Rel}

/-! The texts of places. -/

theorem Rel.plain (rel : Rel) : ∀ name ∈ rel.names, IsSegment name.toList :=
  fun name member => (rel.valid name member).segment

theorem Rel.plain_segments (rel : Rel) : ∀ segment ∈ segmentsOf rel.names, IsSegment segment := by
  intro segment member
  obtain ⟨name, held, rfl⟩ := List.mem_map.mp member
  exact rel.plain name held

theorem Rel.text_ne_empty (rel : Rel) : rel.text ≠ "" := by
  intro empty
  have none : Text.joined '/' (segmentsOf rel.names) = [] := by
    simpa [Rel.text] using congrArg String.toList empty
  rw [Text.joined_eq_nil fun segment member => (rel.plain_segments segment member).full] at none
  exact rel.occupied (List.map_eq_nil_iff.mp none)

/-- The root as `spelled` writes it. -/
def shownRoot (fixture : Fixture) : Path := ⟨String.ofList (Path.slashed fixture.root.toList)⟩

section

variable {char : Char}

theorem path_descend (ending : fixture.root.toList.getLast? = some char) (noSlash : char ≠ '/')
    (rel : Rel) : fixture.path rel.text = RawText.descend fixture.root rel.names := by
  have occupied : fixture.root ≠ "" := fun empty => by simp [empty] at ending
  have unended : fixture.root.toList.getLast? ≠ some '/' := by simp [ending, noSlash]
  have relative : ¬startsAtRoot rel.text := by
    simpa [startsAtRoot, Rel.text] using Path.joined_head_ne_slash rel.plain_segments
  have below := RawText.toList_descend occupied unended rel.occupied rel.plain
  rw [path, RawText.join, if_neg (by simp [relative, occupied]), if_neg unended]
  refine String.toList_inj.mp (Eq.trans ?_ below.symm)
  simp [Rel.text]

theorem spelled_descend (ending : fixture.shownRoot.text.toList.getLast? = some char)
    (noSlash : char ≠ '/') (rel : Rel) :
    fixture.spelled rel.text = RawText.descend fixture.shownRoot.text rel.names := by
  have occupied : fixture.shownRoot.text ≠ "" := fun empty => by simp [empty] at ending
  have unended : fixture.shownRoot.text.toList.getLast? ≠ some '/' := by simp [ending, noSlash]
  have below := RawText.toList_descend occupied unended rel.occupied rel.plain
  have trimmed : Text.dropEnd (· == '/') fixture.shownRoot.text.toList =
      fixture.shownRoot.text.toList := Text.dropEnd_of_getLast? ending (by simpa using noSlash)
  rw [shownRoot, String.toList_ofList] at trimmed
  rw [spelled, trimmed, if_neg rel.text_ne_empty]
  refine String.toList_inj.mp (Eq.trans ?_ below.symm)
  simp [Rel.text, shownRoot]

theorem ofText_path_spelled (ending : fixture.root.toList.getLast? = some char) (noSlash : char ≠ '/')
    (shown : fixture.shownRoot.text.toList.getLast? = some char) (rel : Rel) :
    Path.ofText (fixture.path rel.text) = Path.ofText (fixture.spelled rel.text) := by
  have slashedRoot : Path.slashed fixture.shownRoot.text.toList = Path.slashed fixture.root.toList := by
    rw [shownRoot, String.toList_ofList, Path.slashed_of_not_mem (Path.not_mem_slashed _)]
  have below (text : String) (ending : text.toList.getLast? = some char) :
      Path.slashed (RawText.descend text rel.names).toList = Path.slashed text.toList ++
        Path.slashed ('/' :: Text.joined '/' (segmentsOf rel.names)) := by
    rw [RawText.toList_descend (fun empty => by simp [empty] at ending) (by simp [ending, noSlash])
      rel.occupied rel.plain, Path.slashed, List.map_append]
    rfl
  rw [path_descend ending noSlash, spelled_descend shown noSlash, Path.ofText, Path.ofText,
    below _ ending, below _ shown, slashedRoot]

/-- A search spells every place below a root as `spelled` does exactly if the root is canonical once its
backslashes are written as slashes. The root has to end in a name, as a new directory does. -/
theorem ofText_path_iff (ending : fixture.root.toList.getLast? = some char)
    (letter : char.isAlphanum) :
    (∀ rel : Rel, Path.ofText (fixture.path rel.text) = ⟨fixture.spelled rel.text⟩) ↔
      fixture.shownRoot.Canonical := by
  have apart {other : Char} (sign : ¬other.isAlphanum) : char ≠ other := fun same =>
    sign (same ▸ letter)
  have noSlash : char ≠ '/' := apart (by decide)
  have shown : fixture.shownRoot.text.toList.getLast? = some char := by
    have noBackslash : char ≠ '\\' := apart (by decide)
    simp [shownRoot, Path.slashed, ending, noBackslash]
  constructor
  · intro spells
    let place : Rel := ⟨["a"], by decide, by decide, by decide⟩
    have canonical := Path.ofText_canonical (fixture.path place.text)
    rw [spells place, spelled_descend shown noSlash] at canonical
    exact @Path.canonical_of_join _ "a" _ shown noSlash (apart (by decide)) (by decide) canonical
  · intro canonical rel
    have notDot : fixture.shownRoot.text ≠ "." := by
      intro dot
      rw [dot] at shown
      exact apart (by decide) (Option.some.inj shown).symm
    obtain ⟨start, segments, shows, free⟩ := canonical.shows notDot
    rw [ofText_path_spelled ending noSlash shown, spelled_descend shown noSlash]
    exact shows.ofText_descend free rel.plain rel.tame

end

theorem ending (vacant : Vacant disk ⟨fixture.root⟩ directory name) :
    ∃ char, fixture.root.toList.getLast? = some char ∧ char ≠ '/' := by
  obtain ⟨start, segments, spelling, -⟩ := vacant.grounded.spelled
  have text : fixture.root.toList = Path.spelled start segments := spelling.text
  rw [text]
  exact Path.getLast?_spelled_ne_slash spelling.atRoot (vacant.occupied spelling) spelling.plain

theorem shownRoot_eq (vacant : Vacant disk ⟨fixture.root⟩ directory name) :
    fixture.shownRoot = ⟨fixture.root⟩ := by
  obtain ⟨start, segments, spelling, free⟩ := vacant.grounded.spelled
  exact congrArg Path.mk (by rw [spelling.slashed_text free, String.ofList_toList])

theorem path_eq (vacant : Vacant disk ⟨fixture.root⟩ directory name) (rel : Rel) :
    fixture.path rel.text = RawText.descend fixture.root rel.names := by
  obtain ⟨char, ending, noSlash⟩ := ending vacant
  exact path_descend ending noSlash rel

theorem spelled_eq (vacant : Vacant disk ⟨fixture.root⟩ directory name) (rel : Rel) :
    fixture.spelled rel.text = RawText.descend fixture.root rel.names := by
  obtain ⟨char, ending, noSlash⟩ := ending vacant
  have shown := shownRoot_eq vacant
  have whole := @spelled_descend fixture char (by rwa [shown]) noSlash rel
  rwa [shown] at whole

theorem ofText_path (vacant : Vacant disk ⟨fixture.root⟩ directory name) (rel : Rel) :
    Path.ofText (fixture.path rel.text) = ⟨fixture.spelled rel.text⟩ := by
  obtain ⟨start, segments, spelling, free⟩ := vacant.grounded.spelled
  rw [path_eq vacant, spelled_eq vacant]
  exact spelling.ofText_descend free rel.plain rel.tame

theorem parent?_path (vacant : Vacant disk ⟨fixture.root⟩ directory name) (rel : Rel) :
    ∃ front last, rel.names = front ++ [last] ∧
      RawText.parent? (fixture.path rel.text) = some (RawText.descend fixture.root front) := by
  obtain ⟨front, last, whole⟩ : ∃ front last, rel.names = front ++ [last] :=
    ⟨_, _, (List.dropLast_concat_getLast rel.occupied).symm⟩
  obtain ⟨start, segments, spelling, -⟩ := vacant.grounded.spelled
  refine ⟨front, last, whole, ?_⟩
  rw [path_eq vacant, whole]
  exact spelling.parent?_descend (vacant.occupied spelling) (whole ▸ rel.plain)

/-! What comes of a request. -/

theorem file_refused {text above content : String} {fault : Fault} {middle : Disk}
    (parent : RawText.parent? (fixture.path text) = some above)
    (refused : disk.makeDirs above = (.error fault, middle)) :
    fixture.file text content disk = (.error (.parent above fault), middle) := by
  unfold file
  extract_lets place
  rw [parent]
  dsimp only
  rewrite [refused]
  rfl

theorem file_made {text above content : String} {middle : Disk}
    (parent : RawText.parent? (fixture.path text) = some above)
    (made : disk.makeDirs above = (.ok (), middle)) :
    fixture.file text content disk = match middle.write (fixture.path text) content with
      | .ok disk => (.ok (), disk)
      | .error fault => (.error (.file (fixture.path text) fault), middle) := by
  unfold file
  extract_lets place
  rw [parent]
  dsimp only
  rewrite [made]
  rfl

namespace Request

/-- The request can not be granted in a directory with these entries. -/
def Stuck (inside : Listing) : Request → Prop
  | file rel _ => inside.Barred rel.names.dropLast ∨ isDirAt inside rel.names
  | dir rel => inside.Barred rel.names

/-- What stands at a place once a request is granted. -/
def granted (location : Location) (stood : Option Entry) : Request → Option Entry
  | file rel content =>
      if location = rel.names then some (.leaf (.file content))
      else if location <+: rel.names then some .dir
      else stood
  | dir rel => if location <+: rel.names then some .dir else stood

/-- Entries in which a request is granted. -/
structure Grants (request : Request) (before after : Listing) : Prop where
  ordered : after.Ordered
  entries : ∀ location, after.entryAt? location = request.granted location (before.entryAt? location)

theorem Grants.linkless {request : Request} {before after : Listing} (grants : request.Grants before after)
    (linkless : before.Linkless) : after.Linkless := by
  intro location target link
  have entry := grants.entries location
  rw [Listing.entryAt?_eq_leaf.mpr link] at entry
  have before : before.entryAt? location ≠ some (.leaf (.link target)) := fun stood =>
    linkless location target (Listing.entryAt?_eq_leaf.mp stood)
  cases request with
  | file rel content =>
      simp only [granted] at entry
      split at entry
      · simp at entry
      · split at entry
        · simp at entry
        · exact before entry.symm
  | dir rel =>
      simp only [granted] at entry
      split at entry
      · simp at entry
      · exact before entry.symm

/-- What comes of a request in a directory: nothing if it is stuck there, else what it asks for. -/
def Settles (request : Request) (disk : Disk) (directory : Location) (name : String) (inside : Listing)
    (answer : Except Breach Unit × Disk) : Prop :=
  (request.Stuck inside → ∃ breach, answer = (.error breach, disk.hosting directory name inside)) ∧
  (¬request.Stuck inside → ∃ grown, answer = (.ok (), disk.hosting directory name grown) ∧
    request.Grants inside grown)

theorem dir_below (vacant : Vacant disk ⟨fixture.root⟩ directory name) (linkless : inside.Linkless)
    (ordered : inside.Ordered) (fits : Fits ⟨fixture.root⟩ rel.names) :
    (dir rel).Settles disk directory name inside
      (fixture.dir rel.text (disk.hosting directory name inside)) := by
  obtain ⟨barred, passes⟩ := vacant.makeDirs_below linkless ordered fits
  simp only [Fixture.dir, path_eq vacant]
  constructor
  · intro stuck
    obtain ⟨fault, refused⟩ := barred stuck
    refine ⟨.dir (RawText.descend fixture.root rel.names) fault, ?_⟩
    simp only [refused]
  · intro free
    obtain ⟨grown, made, kept, extended⟩ := passes free
    refine ⟨grown, by simp only [made], kept, fun location => ?_⟩
    by_cases within : location <+: rel.names
    · simp only [granted, if_pos within, (extended.way location within).2]
    · simp only [granted, if_neg within, extended.rest location within]

/-- No file is written in place of a directory. -/
theorem file_onto_dir (vacant : Vacant disk ⟨fixture.root⟩ directory name) (linkless : inside.Linkless)
    (fits : Fits ⟨fixture.root⟩ rel.names) (dir : isDirAt inside rel.names) (content : String) :
    ∃ breach, fixture.file rel.text content (disk.hosting directory name inside) =
      (.error breach, disk.hosting directory name inside) := by
  obtain ⟨front, last, whole, parent⟩ := parent?_path vacant rel
  obtain ⟨deeper, held⟩ := isDirAt_iff.mp dir
  have refused := vacant.write_dir linkless fits held content
  rw [whole] at held fits
  obtain ⟨below, above⟩ := Listing.at?_front held (by simp)
  have made := vacant.makeDirs_dir linkless (vacant.fits_front fits) above
  exact ⟨_, by rw [file_made parent made, path_eq vacant, refused]⟩

theorem file_below (vacant : Vacant disk ⟨fixture.root⟩ directory name) (linkless : inside.Linkless)
    (ordered : inside.Ordered) (fits : Fits ⟨fixture.root⟩ rel.names) (content : String) :
    (file rel content).Settles disk directory name inside
      (fixture.file rel.text content (disk.hosting directory name inside)) := by
  obtain ⟨front, last, whole, parent⟩ := parent?_path vacant rel
  have onto := file_onto_dir vacant linkless fits
  have text := path_eq vacant rel
  rw [whole] at fits text onto
  obtain ⟨barred, passes⟩ := vacant.makeDirs_below linkless ordered (vacant.fits_front fits)
  rw [Settles, Stuck, whole, List.dropLast_concat]
  constructor
  · intro stuck
    rcases stuck with onWay | dir
    · obtain ⟨fault, refused⟩ := barred onWay
      exact ⟨_, file_refused parent refused⟩
    · exact onto dir content
  · intro free
    rw [not_or] at free
    obtain ⟨grown, made, kept, extended⟩ := passes free.1
    have entry := (extended.way front List.prefix_rfl).2
    obtain ⟨below, above⟩ := isDirAt_iff.mp (Listing.isDirAt_of_entryAt? entry)
    have noDir (deeper : Listing) : below.find? last ≠ some (.dir deeper) := by
      intro held
      rw [← Listing.at?_singleton, ← Listing.at?_append above] at held
      have entry := Listing.entryAt?_of_isDirAt (isDirAt_iff.mpr ⟨deeper, held⟩)
      rw [extended.rest _ (Listing.beyond_concat front last)] at entry
      exact free.2 (Listing.isDirAt_of_entryAt? entry)
    have wrote := vacant.write_below (extended.linkless linkless) fits above noDir content
    refine ⟨_, by rw [file_made parent made, text, wrote], ?_, fun location => ?_⟩
    · exact kept.change fun _ kept => kept.put (by simp)
    · rw [Listing.entryAt?_change above fun back => Listing.entryAt?_put noDir (Disk.bare_leaf _), granted,
        whole]
      by_cases here : location = front ++ [last]
      · simp only [if_pos here, Node.entry]
      · rw [if_neg here, if_neg here]
        by_cases within : location <+: front
        · rw [if_pos (within.trans (List.prefix_append front [last])), (extended.way location within).2]
        · have outside : ¬location <+: front ++ [last] := by
            rw [List.prefix_concat_iff, not_or]
            exact ⟨here, within⟩
          rw [if_neg outside, extended.rest location within]

/-- A request is granted exactly where it is not stuck, and else changes nothing. -/
theorem run_below (vacant : Vacant disk ⟨fixture.root⟩ directory name) (linkless : inside.Linkless)
    (ordered : inside.Ordered) (request : Request) (fits : Fits ⟨fixture.root⟩ request.rel.names) :
    request.Settles disk directory name inside
      (request.run fixture (disk.hosting directory name inside)) := by
  cases request with
  | file rel content => exact file_below vacant linkless ordered fits content
  | dir rel => exact dir_below vacant linkless ordered fits

end Request

end Fixture

end ManifestSearch
