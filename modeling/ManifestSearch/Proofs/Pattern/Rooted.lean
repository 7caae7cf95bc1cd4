import Mathlib.Data.List.TakeWhile
import ManifestSearch.Proofs.Path.Canonical
import ManifestSearch.Proofs.Pattern.LinkedStart
import ManifestSearch.Proofs.Tree.Settling

/-!
Patterns that do not depend on the working directory. A text that starts at the root is resolved
alike from every working directory, and so is what a walk finds below it. A relative pattern leads
to such texts alone, unless it settles to a drive and more segments: that counts as absolute, and
the file system resolves it from the working directory.
-/

namespace ManifestSearch

open ManifestSearch.Path (IsSegment isDrive settled spelled slashed)

variable {left right disk : Disk} {text above : String} {throughLast : Bool} {base : Path}
  {pattern : String} {skipped : List String} {listing : Listing} {held : Leaf}
  {place ending : Location} {root : Listing} {steps : List Step} {segments : List (List Char)}

namespace Disk

theorem reach_sameTree (sameTree : left.root = right.root) (rooted : startsAtRoot text) :
    left.reach throughLast text = right.reach throughLast text := by
  simp only [reach, reachBy, rooted, if_true, sameTree]

theorem node_sameTree (sameTree : left.root = right.root) (rooted : startsAtRoot text) :
    left.node throughLast text = right.node throughLast text := by
  simp only [Disk.node, reach_sameTree sameTree rooted, sameTree]

theorem isFile_sameTree (sameTree : left.root = right.root) (rooted : startsAtRoot text) :
    left.isFile text = right.isFile text := by
  simp only [isFile, node_sameTree sameTree rooted]

theorem isDir_sameTree (sameTree : left.root = right.root) (rooted : startsAtRoot text) :
    left.isDir text = right.isDir text := by
  simp only [isDir, node_sameTree sameTree rooted]

/-! A slash at the end of a text asks for a directory. -/

theorem isDirAt_of_depart
    (reached : depart root true place (steps ++ [.stay]) = .ok (.taken ending)) :
    isDirAt root ending := by
  rw [depart] at reached
  split at reached
  · rename_i here
    have leads := leads_of_travel reached
    obtain ⟨middle, first, dir⟩ := leads.leading (by simp) here
    obtain ⟨left, -, goesOn⟩ := first.append dir
    rw [goesOn true [.stay] (by simp), travel_stay] at reached
    cases Leads.arrive.travel.symm.trans reached
    exact dir
  · contradiction

theorem isDirAt_of_drift
    (reached : disk.drift true (steps ++ [.stay]) = .ok (.taken ending)) :
    isDirAt disk.root ending := by
  induction steps with
  | nil => cases reached
  | cons step steps ih =>
      cases step with
      | stay => exact ih reached
      | up => exact isDirAt_of_depart reached
      | into name => contradiction

theorem not_isFile_of_trailing (trailing : Step.all text = steps ++ [.stay]) :
    disk.isFile text = false := by
  have dirAt (ending : Location) (reached : disk.reach true text = .ok (.taken ending)) :
      isDirAt disk.root ending := by
    rw [reach, reachBy, trailing] at reached
    split at reached
    · contradiction
    split at reached
    · contradiction
    split at reached
    · contradiction
    split at reached
    · exact isDirAt_of_depart reached
    split at reached
    · exact isDirAt_of_drift reached
    · exact isDirAt_of_depart reached
  rw [isFile, Disk.node]
  cases reached : disk.reach true text with
  | error fault => rfl
  | ok spot =>
      cases spot with
      | free directory name => rfl
      | adrift => rfl
      | taken ending =>
          obtain ⟨inside, stands⟩ := isDirAt_iff.mp (dirAt ending reached)
          simp only [stands]

end Disk

namespace Walk

theorem counts_sameTree (sameTree : left.root = right.root) (rooted : startsAtRoot text) :
    counts left text held = counts right text held := by
  cases held with
  | file content => rfl
  | link target => exact Disk.isFile_sameTree sameTree rooted

theorem below_sameTree (sameTree : left.root = right.root) (rooted : startsAtRoot above) :
    below left skipped above listing = below right skipped above listing := by
  induction listing generalizing above with
  | nil => rfl
  | leaf name held rest ih =>
      have entry := RawText.startsAtRoot_join rooted name
      simp only [below, counts_sameTree sameTree entry, ih rooted]
  | dir name inside rest ihInside ihRest =>
      have entry := RawText.startsAtRoot_join rooted name
      simp only [below, ihInside entry, ihRest rooted]

theorem files_sameTree (sameTree : left.root = right.root) (rooted : startsAtRoot base.text) :
    files ⟨base, skipped⟩ left = files ⟨base, skipped⟩ right := by
  simp only [files, run, Disk.node_sameTree sameTree rooted, below_sameTree sameTree rooted]

theorem below_rooted (rooted : startsAtRoot above) :
    ∀ file ∈ (below disk skipped above listing).files, startsAtRoot file.text := by
  induction listing generalizing above with
  | nil => simp [below]
  | leaf name held rest ih =>
      have entry := RawText.startsAtRoot_join rooted name
      simp only [below]
      split
      · intro file member
        rcases List.mem_cons.mp member with rfl | member
        · exact (Path.ofText_grounded entry).2
        · exact ih rooted file member
      · exact ih rooted
  | dir name inside rest ihInside ihRest =>
      have entry := RawText.startsAtRoot_join rooted name
      simp only [below]
      split
      · exact ihRest rooted
      · intro file member
        rw [Found.append, enter] at member
        split at member
        · split at member
          · contradiction
          · exact ihInside entry file member
        · rcases List.mem_append.mp member with member | member
          · split at member
            · contradiction
            · exact ihInside entry file member
          · exact ihRest rooted file member

theorem files_rooted {all : List Path} (rooted : startsAtRoot base.text)
    (walked : files ⟨base, skipped⟩ disk = .ok all) : ∀ file ∈ all, startsAtRoot file.text := by
  have whole : (run ⟨base, skipped⟩ disk).files = all := by
    rw [files, Found.outcome] at walked
    split at walked
    · contradiction
    · cases walked
      rfl
  have alone : startsAtRoot (Path.ofText base.text).text := (Path.ofText_grounded rooted).2
  rw [← whole, run]
  split
  · simp [Found.failed]
  · exact below_rooted rooted
  · simpa using alone
  · split
    · simp [Found.failed]
    · exact below_rooted rooted
    · simpa using alone

end Walk

namespace Path

theorem startsAtRoot_join (rooted : startsAtRoot base.text) (text : String) :
    startsAtRoot (base.join text).text := by
  have head : base.text.toList.head? = some '/' := by simpa [startsAtRoot] using rooted
  obtain ⟨rest, whole⟩ := List.head?_eq_some_iff.mp head
  obtain ⟨between, -, joined⟩ := join_toList base text
  rw [joined]
  apply (spelled_clean ?_).startsAtRoot
  rw [whole]
  exact start_cons_slash _

theorem relativeTo?_of_relative {path : Path} (rooted : startsAtRoot base.text)
    (relative : ¬startsAtRoot path.text) (occupied : path.text.toList ≠ []) :
    path.relativeTo? base = none := by
  have head : base.text.toList.head? = some '/' := by simpa [startsAtRoot] using rooted
  obtain ⟨rest, whole⟩ := List.head?_eq_some_iff.mp head
  obtain ⟨char, text, begins⟩ := List.exists_cons_of_ne_nil occupied
  have noSlash : char ≠ '/' := by simpa [startsAtRoot, begins] using relative
  have front : base.trimmed <+: '/' :: rest := whole ▸ Text.dropEnd_prefix _ _
  rw [relativeTo?, begins]
  cases trimmed : base.trimmed with
  | nil => simp [Text.after?, noSlash]
  | cons first more =>
      rw [trimmed] at front
      simp [Text.after?, (List.cons_prefix_cons.mp front).1, Ne.symm noSlash]

theorem isDrive_iff {segment : List Char} :
    isDrive segment ↔ ∃ letter, segment = [letter, ':'] ∧ letter.isAlpha := by
  constructor
  · intro drive
    unfold isDrive at drive
    split at drive
    · exact ⟨_, rfl, drive⟩
    · contradiction
  · rintro ⟨letter, rfl, alpha⟩
    exact alpha

/-- A relative path counts as absolute if its first segment is a drive. -/
theorem isAbsolute_relative (plain : ∀ segment ∈ segments, IsSegment segment) :
    isAbsolute ⟨String.ofList (spelled .relative segments)⟩ = segments.head?.any isDrive := by
  have relative : (spelled .relative segments).head? ≠ some '/' := by
    intro head
    exact start_ne_relative head (start_spelled_relative plain)
  have first : isAbsolute ⟨String.ofList (spelled .relative segments)⟩ =
      isDrive ((spelled .relative segments).takeWhile (· ≠ '/')) := by
    simp only [isAbsolute, String.toList_ofList]
    split
    · rename_i whole
      simp [whole] at relative
    · rfl
  have whole (segment : List Char) (free : '/' ∉ segment) :
      segment.takeWhile (· ≠ '/') = segment :=
    List.takeWhile_eq_self_iff.mpr fun char member =>
      decide_eq_true fun same : char = '/' => free (same ▸ member)
  have upTo (segment : List Char) (free : '/' ∉ segment) (rest : List Char) :
      (segment ++ '/' :: rest).takeWhile (· ≠ '/') = segment := by
    rw [List.takeWhile_append, whole segment free]
    simp
  rw [first]
  match segments, plain with
  | [], _ => rfl
  | [only], plain =>
      have free := (plain only (by simp)).noSlash
      simp only [spelled]
      split
      · rw [upTo only free]
        rfl
      · rw [whole only free]
        rfl
  | only :: next :: rest, plain =>
      have free := (plain only (by simp)).noSlash
      simp only [spelled]
      rw [Text.joined_cons (by simp), upTo only free]
      rfl

end Path

namespace Pattern

/-- The segments that a pattern settles to. -/
def parts (pattern : String) : List (List Char) :=
  settled (Text.pieces '/' (slashed pattern.toList))

/-- A pattern that settles to a drive and more segments behind it. -/
def isPastDrive (pattern : String) : Bool :=
  match parts pattern with
  | drive :: _ :: _ => isDrive drive
  | _ => false

theorem isSegment_of_mem_parts : ∀ segment ∈ parts pattern, IsSegment segment :=
  fun _ => Path.isSegment_of_mem_settled

theorem head_slashed_of_relative
    (relative : ∀ first ∈ pattern.toList.head?, first ≠ '/' ∧ first ≠ '\\') :
    (slashed pattern.toList).head? ≠ some '/' := by
  rw [slashed, List.head?_map]
  cases first : pattern.toList.head? with
  | none => simp
  | some char =>
      obtain ⟨noSlash, noBackslash⟩ := relative char first
      simp [noSlash, noBackslash]

theorem ofText_relative
    (relative : ∀ first ∈ pattern.toList.head?, first ≠ '/' ∧ first ≠ '\\') :
    Path.ofText pattern = ⟨String.ofList (spelled .relative (parts pattern))⟩ := by
  have start := Path.start_eq_relative (head_slashed_of_relative relative)
  rw [Path.ofText, Path.clean, start, parts]

theorem plainStart_rooted {glob : List Char} (rooted : glob.head? = some '/') :
    (plainStart glob).head? = some '/' := by
  obtain ⟨rest, rfl⟩ := List.head?_eq_some_iff.mp rooted
  obtain ⟨dirs, front⟩ : ∃ dirs, plainDirs ('/' :: rest) = [] :: dirs := by
    obtain ⟨piece, pieces, cut⟩ := List.exists_cons_of_ne_nil (Text.pieces_ne_nil '/' rest)
    rw [plainDirs, Text.pieces, if_pos rfl, cut, List.dropLast_cons_cons]
    exact ⟨_, rfl⟩
  rw [plainStart, front]
  by_cases alone : dirs = []
  · simp [alone, Text.joined]
  · simp [Text.joined_cons alone]

theorem scope_start_rooted {anchored : Path} (rooted : startsAtRoot base.text)
    (anchoredRooted : startsAtRoot anchored.text) :
    startsAtRoot (scope base anchored).start.text := by
  unfold scope
  split
  · exact Path.startsAtRoot_join rooted _
  · have head : anchored.text.toList.head? = some '/' := by
      simpa [startsAtRoot] using anchoredRooted
    exact (Path.ofText_grounded (by simp [startsAtRoot, plainStart_rooted head])).2

theorem Scope.finding_sameTree {scope : Scope} (sameTree : left.root = right.root)
    (rooted : startsAtRoot scope.start.text) : scope.finding left = scope.finding right := by
  unfold Scope.finding
  rw [Disk.isDir_sameTree sameTree rooted, Walk.files_sameTree sameTree rooted]

theorem Scope.finding_rooted {scope : Scope} {files : List Path}
    (rooted : startsAtRoot scope.start.text) (found : (scope.finding disk).outcome = .ok files) :
    ∀ file ∈ files, startsAtRoot file.text := by
  rcases Scope.finding_cases scope disk with nothing | ⟨outcome, matched⟩
  · rw [nothing] at found
    cases found
    simp
  · obtain ⟨-, tokens, rfl⟩ := Scope.finding_matched matched
    rw [matched] at found
    cases walked : Walk.files ⟨scope.start, []⟩ disk with
    | error failure => simp [walked, Finding.outcome, Except.map] at found
    | ok all =>
        rw [walked] at found
        cases found
        intro file member
        have listed := (List.mem_filter.mp member).1
        exact Walk.files_rooted rooted walked file listed

theorem literal?_sameTree (sameTree : left.root = right.root)
    (anchored : startsAtRoot (anchor base pattern).text) :
    literal? left base pattern = literal? right base pattern := by
  rw [literal?, literal?, Disk.isFile_sameTree sameTree anchored]

theorem finding_sameTree (sameTree : left.root = right.root) (rooted : startsAtRoot base.text)
    (anchored : startsAtRoot (anchor base pattern).text) :
    finding left base pattern = finding right base pattern := by
  have scopes := Scope.finding_sameTree sameTree (scope_start_rooted rooted anchored)
  unfold finding
  rw [literal?_sameTree sameTree anchored]
  cases literal? right base pattern with
  | some file => rfl
  | none => exact scopes

theorem finding_rooted {files : List Path} (rooted : startsAtRoot base.text)
    (anchored : startsAtRoot (anchor base pattern).text)
    (found : (finding disk base pattern).outcome = .ok files) :
    ∀ file ∈ files, startsAtRoot file.text := by
  by_cases literal : disk.isFile (anchor base pattern).text
  · rw [finding_of_isFile literal] at found
    cases found
    simpa using anchored
  · have unnamed : literal? disk base pattern = none := if_neg literal
    unfold finding at found
    rw [unnamed] at found
    have start := scope_start_rooted rooted anchored
    exact Scope.finding_rooted start found

/-- A pattern is anchored at the root, or names a drive and nothing behind it. -/
theorem anchor_cases (rooted : startsAtRoot base.text)
    (relative : ∀ first ∈ pattern.toList.head?, first ≠ '/' ∧ first ≠ '\\')
    (notPast : isPastDrive pattern = false) :
    startsAtRoot (anchor base pattern).text ∨
      ∃ drive, isDrive drive ∧ anchor base pattern = ⟨String.ofList (drive ++ ['/'])⟩ := by
  have absolute : (Path.ofText pattern).isAbsolute = (parts pattern).head?.any isDrive := by
    rw [ofText_relative relative, Path.isAbsolute_relative isSegment_of_mem_parts]
  rw [isPastDrive] at notPast
  by_cases taken : (Path.ofText pattern).isAbsolute
  · have own : anchor base pattern = Path.ofText pattern := if_pos taken
    rw [own, ofText_relative relative]
    rw [absolute] at taken
    match parts pattern, taken, notPast with
    | [drive], taken, _ =>
        have drive : isDrive drive := taken
        exact .inr ⟨_, drive, by simp [spelled, drive]⟩
    | drive :: _ :: _, taken, notPast =>
        have drive : isDrive drive := taken
        simp [drive] at notPast
  · have joined : anchor base pattern = base.join pattern := if_neg taken
    rw [joined]
    exact .inl (Path.startsAtRoot_join rooted pattern)

/-- A drive and nothing behind it names no file and has no wildcard. -/
theorem finding_of_drive {drive : List Char} (rooted : startsAtRoot base.text)
    (isDrive : isDrive drive)
    (named : anchor base pattern = ⟨String.ofList (drive ++ ['/'])⟩) :
    finding disk base pattern = .plain := by
  obtain ⟨letter, rfl, alpha⟩ := Path.isDrive_iff.mp isDrive
  have differs (char : Char) (other : char.isAlpha = false) : letter ≠ char := by
    rintro rfl
    simp [alpha] at other
  have noSlash := differs '/' (by decide)
  have steps : Step.all (String.ofList ([letter, ':'] ++ ['/'])) =
      [.into (String.ofList [letter, ':'])] ++ [.stay] := by
    simp [Step.all, Step.ofText, Text.pieces, noSlash, Step.ofPiece]
  have unnamed : literal? disk base pattern = none := by
    rw [literal?, named, Disk.not_isFile_of_trailing steps]
    rfl
  have outside : (anchor base pattern).relativeTo? base = none := by
    rw [named]
    exact Path.relativeTo?_of_relative rooted (by simp [startsAtRoot, noSlash]) (by simp)
  unfold finding scope
  rw [unnamed, outside]
  simp [Scope.finding, named, isWild, differs]

/-- A relative pattern is resolved from the base alone: all working directories give the same
report, and every path in it starts at the root. -/
theorem resolve_relative_rooted (sameTree : left.root = right.root)
    (rooted : startsAtRoot base.text)
    (relative : ∀ first ∈ pattern.toList.head?, first ≠ '/' ∧ first ≠ '\\')
    (notPast : isPastDrive pattern = false) :
    resolve left base pattern = resolve right base pattern ∧
      ∀ found, (resolve left base pattern).outcome = .ok found →
        ∀ file ∈ found, startsAtRoot file.text := by
  rcases anchor_cases rooted relative notPast with anchored | ⟨drive, isDrive, named⟩
  · constructor
    · rw [resolve, resolve, finding_sameTree sameTree rooted anchored]
    · intro found outcome
      simp only [resolve] at outcome
      exact finding_rooted rooted anchored outcome
  · have plain (disk : Disk) := @finding_of_drive disk _ _ _ rooted isDrive named
    constructor
    · rw [resolve, resolve, plain left, plain right]
    · intro found outcome
      rw [resolve, plain left] at outcome
      cases outcome
      simp

theorem resolve_relative_rooted_up :
    resolve Walk.sampleDisk ⟨"/w"⟩ "../w/*/*.json" =
        resolve { Walk.sampleDisk with here := ["w", "src"] } ⟨"/w"⟩ "../w/*/*.json" ∧
      ∀ file ∈ [(⟨"/w/src/tsconfig.json"⟩ : Path)], startsAtRoot file.text := by
  obtain ⟨alike, rooted⟩ := @resolve_relative_rooted Walk.sampleDisk
    { Walk.sampleDisk with here := ["w", "src"] } ⟨"/w"⟩ "../w/*/*.json" rfl (by decide) (by simp)
    (by decide)
  exact ⟨alike, rooted _ (by decide +kernel)⟩

def driveListing : Listing :=
  .dir "C:" (.leaf "x.json" (.file "") .nil) (.dir "w" .nil .nil)

/-- A pattern that settles to a drive and more is resolved from the working directory. -/
theorem resolve_past_drive :
    startsAtRoot "/w" ∧ (∀ first ∈ "C:/x.json".toList.head?, first ≠ '/' ∧ first ≠ '\\') ∧
      (resolve ⟨driveListing, [], false⟩ ⟨"/w"⟩ "C:/x.json").outcome = .ok [⟨"C:/x.json"⟩] ∧
      ¬startsAtRoot "C:/x.json" ∧
      (resolve ⟨driveListing, ["w"], false⟩ ⟨"/w"⟩ "C:/x.json").outcome = .ok [] :=
  ⟨by decide, by simp, by decide +kernel⟩

/-- The pattern need not begin with the drive. -/
example : (resolve ⟨driveListing, [], false⟩ ⟨"/w"⟩ "lib/../C:/*.json").outcome =
    .ok [⟨"C:/x.json"⟩] := by
  decide +kernel

end Pattern

end ManifestSearch
