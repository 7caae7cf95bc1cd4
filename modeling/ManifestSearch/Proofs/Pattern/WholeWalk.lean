import Mathlib.Data.List.TakeWhile
import ManifestSearch.Proofs.Glob.PlainStart
import ManifestSearch.Proofs.Walk.Depth

/-!
What a pattern stands for does not depend on where the walk starts. A glob is matched against the
files below the directory that its plain segments lead to, but the files that it matches are those
that it would match among all files below the base, in the same order.
-/

namespace ManifestSearch

open ManifestSearch.Path (Spelled IsSegment Start)

variable {disk : Disk} {base : Path} {inside : Listing} {pattern rel : String}
  {segments front more : List (List Char)} {tokens : List Glob.Token} {names : Location}

namespace Pattern

/-- The files that a glob relative to `base` matches, out of a list of files below it. -/
def matching (base : Path) (glob : String) (files : List Path) : List Path :=
  if glob.toList.any isWild then
    match Glob.parse glob with
    | .error _ => []
    | .ok tokens => files.filter (Scope.selects ⟨glob, base, some base⟩ tokens)
  else []

/-! The plain segments of a glob. -/

theorem plainDirs_joined (plain : ∀ segment ∈ more, IsSegment segment) :
    plainDirs (Text.joined '/' more) =
      more.dropLast.takeWhile fun segment => !segment.any isWild := by
  rw [plainDirs]
  by_cases empty : more = []
  · subst empty
    rfl
  · rw [Text.pieces_joined empty fun segment member => (plain segment member).noSlash]

theorem not_isWild_of_mem_plainDirs {segment : List Char} {char : Char} {glob : List Char}
    (member : segment ∈ plainDirs glob) (inSegment : char ∈ segment) : isWild char = false := by
  have passed := List.mem_takeWhile_imp member
  simp only [Bool.not_eq_true', List.any_eq_false, Bool.not_eq_true] at passed
  exact passed char inSegment

theorem exists_append_plainDirs (plain : ∀ segment ∈ more, IsSegment segment)
    (occupied : more ≠ []) :
    ∃ back, back ≠ [] ∧ more = plainDirs (Text.joined '/' more) ++ back := by
  rw [plainDirs_joined plain]
  generalize test : (fun segment : List Char => !segment.any isWild) = keeps
  refine ⟨more.dropLast.dropWhile keeps ++ [more.getLast occupied], by simp, ?_⟩
  rw [← List.append_assoc, List.takeWhile_append_dropWhile, List.dropLast_concat_getLast occupied]

theorem plainStart_joined (plain : ∀ segment ∈ more, IsSegment segment) :
    plainStart (Text.joined '/' more) =
      Text.joined '/' (plainDirs (Text.joined '/' more)) := by
  simp only [plainStart]
  rw [if_neg fun both => Path.joined_head_ne_slash plain both.2]

/-- A glob matches only places below its plain segments. -/
theorem plainDirs_of_isMatch {glob : String} {below : List (List Char)}
    (plain : ∀ segment ∈ more, IsSegment segment) (text : glob.toList = Text.joined '/' more)
    (below_plain : ∀ segment ∈ below, IsSegment segment) (parsed : Glob.parse glob = .ok tokens)
    (matched : Glob.isMatch tokens (String.ofList (Text.joined '/' below))) :
    ∃ rest, below = plainDirs (Text.joined '/' more) ++ rest ∧
      (plainDirs (Text.joined '/' more) = [] ∨ rest ≠ []) := by
  by_cases none : plainDirs (Text.joined '/' more) = []
  · exact ⟨below, by simp [none], .inl none⟩
  have occupied : more ≠ [] := by
    intro same
    subst same
    exact none rfl
  obtain ⟨back, further, parts⟩ := exists_append_plainDirs plain occupied
  generalize dirs : plainDirs (Text.joined '/' more) = front at none parts ⊢
  subst parts
  have free : ∀ segment ∈ front, '/' ∉ segment := fun segment member =>
    (plain segment (by simp [member])).noSlash
  have plainFront : ∀ char ∈ Text.joined '/' front, isWild char = false := by
    intro char inside
    rcases Text.mem_joined inside with rfl | ⟨segment, member, inSegment⟩
    · rfl
    · exact not_isWild_of_mem_plainDirs (dirs ▸ member) inSegment
  -- The glob goes on behind its plain segments, so a slash stands there, and in what it matches.
  rw [Text.joined_append none further] at text
  have begins := Glob.front_of_isMatch plainFront text parsed matched
  rw [String.toList_ofList] at begins
  obtain ⟨rest, whole⟩ := begins
  have some : below ≠ [] := by
    intro same
    subst same
    simp [Text.joined] at whole
  refine ⟨Text.pieces '/' rest, ?_, .inr (Text.pieces_ne_nil '/' rest)⟩
  rw [← Text.pieces_joined some fun segment member => (below_plain segment member).noSlash, ← whole,
    List.append_assoc, List.singleton_append, Text.pieces_append, Text.pieces_joined none free]

theorem mem_of_mem_plainDirs {segment : List Char} (plain : ∀ segment ∈ more, IsSegment segment)
    (member : segment ∈ plainDirs (Text.joined '/' more)) : segment ∈ more := by
  rw [plainDirs_joined plain] at member
  exact List.dropLast_subset more ((List.takeWhile_sublist _).subset member)

theorem scope_start {start : Start} (spelling : base.Spelled start segments)
    (plain : ∀ segment ∈ more, IsSegment segment) (free : ∀ segment ∈ more, '\\' ∉ segment)
    (dirs : plainDirs (Text.joined '/' more) = segmentsOf names) :
    base.join (String.ofList (plainStart (Text.joined '/' more))) =
      ⟨RawText.descend base.text names⟩ := by
  have plainNames : ∀ name ∈ names, IsSegment name.toList := fun name member =>
    plain _ (mem_of_mem_plainDirs plain (dirs ▸ List.mem_map_of_mem member))
  rw [plainStart_joined plain]
  refine (spelling.join ?_ ?_).unique (dirs ▸ spelling.descend plainNames)
  · exact fun segment member => plain segment (mem_of_mem_plainDirs plain member)
  · exact fun segment member => free segment (mem_of_mem_plainDirs plain member)

theorem below_plainDirs_of_selects (site : Walk.Site disk base inside)
    (tame : inside.EveryName IsTame) (spelling : base.Spelled .rooted segments)
    (plain : ∀ segment ∈ more, IsSegment segment) (text : rel.toList = Text.joined '/' more)
    (dirs : plainDirs (Text.joined '/' more) = segmentsOf names)
    (parsed : Glob.parse rel = .ok tokens) {place : Location} {held : Leaf} {start : Path}
    (member : (place, held) ∈ inside.leaves [])
    (selected : Scope.selects ⟨rel, start, some base⟩ tokens
      (Path.ofText (RawText.descend base.text place))) :
    names <+: place ∧ ∃ deeper, inside.at? names = some (.dir deeper) := by
  have stands := site.at?_of_mem_leaves member
  have occupied : segmentsOf place ≠ [] := by
    simpa [segmentsOf] using Listing.ne_nil_of_mem_leaves member
  have plainPlace := site.plain stands
  have below := (spelling.descend plainPlace).plain
  rw [site.ofText_descend tame stands] at selected
  simp only [Scope.selects, Scope.subject?,
    spelling.relativeTo?_eq (spelling.descend plainPlace) (.inl rfl) occupied] at selected
  obtain ⟨rest, whole, further⟩ := plainDirs_of_isMatch plain text
    (fun segment member => below segment (by simp [member])) parsed selected
  rw [dirs] at whole further
  obtain ⟨front, back, rfl, same, rfl⟩ := List.map_eq_append_iff.mp whole
  obtain rfl : front = names := List.map_injective_iff.mpr (fun _ _ => String.toList_inj.mp) same
  refine ⟨List.prefix_append front back, ?_⟩
  rcases further with none | some
  · obtain rfl : front = [] := by simpa [segmentsOf] using none
    exact ⟨inside, rfl⟩
  · exact Listing.at?_front stands (by simpa using some)

theorem Scope.finding_of_isDir {scope : Scope} (wild : scope.glob.toList.any isWild)
    (parsed : Glob.parse scope.glob = .ok tokens) (dir : disk.isDir scope.start.text) :
    scope.finding disk = .matched ((Walk.files ⟨scope.start, []⟩ disk).map fun files =>
      files.filter (scope.selects tokens)) := by
  unfold Scope.finding
  rw [wild, parsed]
  dsimp only
  rw [dir]
  rfl

/-- A glob that is matched against the files below its plain segments matches the files that it
matches among all. -/
theorem finding_outcome (site : Walk.Site disk base inside) (tame : inside.EveryName IsTame)
    (noLinks : disk.NoDirLinks base.text inside)
    (short : ∀ tokens, rel.toList.any isWild → Glob.parse rel = .ok tokens →
      Walk.OpenableFrom ((plainDirs rel.toList).map String.ofList) base.text inside)
    (spelling : base.Spelled .rooted segments) (plain : ∀ segment ∈ more, IsSegment segment)
    (free : ∀ segment ∈ more, '\\' ∉ segment) (text : rel.toList = Text.joined '/' more) :
    (Scope.finding ⟨rel, base.join (String.ofList (plainStart rel.toList)), some base⟩
        disk).outcome =
      .ok (matching base rel (Walk.filesBelow disk [] base.text inside)) := by
  obtain ⟨names, dirs⟩ : ∃ names, plainDirs (Text.joined '/' more) = segmentsOf names :=
    ⟨(plainDirs (Text.joined '/' more)).map String.ofList, by simp [segmentsOf, Function.comp_def]⟩
  have plainNames : ∀ name ∈ names, IsSegment name.toList := fun name member =>
    plain _ (mem_of_mem_plainDirs plain (dirs ▸ List.mem_map_of_mem member))
  rw [text, scope_start spelling plain free dirs]
  simp only [Scope.finding, matching]
  by_cases wild : rel.toList.any isWild
  · rw [if_neg (by simp [wild]), if_pos wild]
    cases parsed : Glob.parse rel with
    | error reason => rfl
    | ok tokens =>
        have short : Walk.OpenableFrom names base.text inside := by
          have opened := short tokens wild parsed
          rw [text, dirs] at opened
          simpa [segmentsOf, Function.comp_def] using opened
        have within (place held) (member : (place, held) ∈ inside.leaves [])
            (selected : Scope.selects ⟨rel, base, some base⟩ tokens
              (Path.ofText (RawText.descend base.text place))) :
            names <+: place ∧ ∃ deeper, inside.at? names = some (.dir deeper) :=
          below_plainDirs_of_selects site tame spelling plain text dirs parsed member selected
        dsimp only
        split
        · -- A match would make the start of the walk a directory.
          rename_i noDir
          refine congrArg Except.ok (List.filter_eq_nil_iff.mpr fun file listed selected => ?_).symm
          obtain ⟨place, held, member, -, rfl⟩ := Walk.mem_filesBelow.mp listed
          obtain ⟨-, deeper, stands⟩ := within place held member selected
          simp [Disk.isDir, site.node_below short stands] at noDir
        · rename_i isDir
          obtain ⟨deeper, stands⟩ := Disk.at?_of_isDir spelling site.found noLinks plainNames
            (by simpa using isDir)
          exact site.files_filter_below short stands fun entry member selected =>
            (within entry.1 entry.2 member selected).1
  · rw [if_pos (by simp [wild]), if_neg wild]
    rfl

/-! Whole patterns. -/

theorem exists_clean_anchor (grounded : base.Grounded) (pattern : String) :
    ∃ text, '\\' ∉ text ∧ anchor base pattern = ⟨String.ofList (Path.clean text)⟩ := by
  simp only [anchor]
  split
  · exact ⟨_, Path.not_mem_slashed pattern.toList, rfl⟩
  · obtain ⟨start, segments, spelling, free⟩ := grounded.spelled
    refine ⟨_, ?_, rfl⟩
    simp only [List.mem_append, not_or]
    refine ⟨⟨?_, ?_⟩, Path.not_mem_slashed pattern.toList⟩
    · rw [spelling.text]
      exact Path.not_mem_spelled (by decide) spelling.atRoot free
    · split <;> simp

theorem anchor_spelled {start : Start} (grounded : base.Grounded)
    (started : Path.start (anchor base pattern).text.toList = start) (atRoot : start ≠ .relative) :
    ∃ segments, (anchor base pattern).Spelled start segments ∧
      ∀ segment ∈ segments, '\\' ∉ segment := by
  obtain ⟨text, free, same⟩ := exists_clean_anchor grounded pattern
  rw [same] at started ⊢
  rw [String.toList_ofList, Path.start_clean] at started
  subst started
  exact ⟨_, Path.spelled_clean atRoot, fun segment member inSegment =>
    free (Path.mem_of_mem_settled member inSegment)⟩

theorem finding_of_isFile (literal : disk.isFile (anchor base pattern).text) :
    finding disk base pattern = .file (anchor base pattern) := by
  have named : literal? disk base pattern = some (anchor base pattern) := if_pos literal
  unfold finding
  rw [named]

theorem finding_of_not_isFile (literal : ¬disk.isFile (anchor base pattern).text)
    (within : (anchor base pattern).relativeTo? base = some rel) :
    finding disk base pattern =
      Scope.finding ⟨rel, base.join (String.ofList (plainStart rel.toList)), some base⟩ disk := by
  have unnamed : literal? disk base pattern = none := if_neg literal
  unfold finding scope
  rw [unnamed, within]

/-- A pattern stands for the file that it names, or else for the files that it matches among all
files below the base, as a walk of the whole base lists them. Only a directory too deep to be opened
comes between, where the walk for the pattern enters it. -/
theorem resolve_outcome (site : Walk.Site disk base inside) (tame : inside.EveryName IsTame)
    (noLinks : disk.NoDirLinks base.text inside)
    (single : Path.start base.text.toList = .rooted)
    (singleAnchored : Path.start (anchor base pattern).text.toList = .rooted)
    (within : (anchor base pattern).relativeTo? base = some rel)
    (short : ∀ tokens, ¬disk.isFile (anchor base pattern).text → rel.toList.any isWild →
      Glob.parse rel = .ok tokens →
      Walk.OpenableFrom ((plainDirs rel.toList).map String.ofList) base.text inside) :
    let all := Walk.filesBelow disk [] base.text inside
    (Walk.Openable [] base.text inside → Walk.files ⟨base, []⟩ disk = .ok all) ∧
      (∀ walked, Walk.files ⟨base, []⟩ disk = .ok walked → walked = all) ∧
      (resolve disk base pattern).outcome =
        .ok (if disk.isFile (anchor base pattern).text then [anchor base pattern]
          else matching base rel all) := by
  intro all
  obtain ⟨start, segments, spelling, -⟩ := site.grounded.spelled
  obtain rfl : start = .rooted := by
    rw [← Path.start_spelled spelling.atRoot spelling.plain, ← spelling.text, single]
  obtain ⟨whole, anchored, free⟩ := anchor_spelled site.grounded singleAnchored (by simp)
  obtain ⟨more, rfl, text⟩ := spelling.eq_append_of_relativeTo? anchored (fun _ => rfl) within
  refine ⟨Walk.files_eq site.grounded.2 site.found, ?_, ?_⟩
  · exact fun walked ended => Walk.files_ok site.grounded.2 site.found ended
  · by_cases literal : disk.isFile (anchor base pattern).text
    · rw [if_pos literal, resolve, finding_of_isFile literal]
      rfl
    · rw [if_neg literal, resolve, finding_of_not_isFile literal within]
      exact finding_outcome site tame noLinks (fun tokens => short tokens literal) spelling
        (fun segment member => anchored.plain segment (by simp [member]))
        (fun segment member => free segment (by simp [member])) (text (.inl rfl))

theorem resolve_outcome_below_src :
    let all := Walk.filesBelow Walk.sampleDisk [] "/w" Walk.sampleListing
    (Walk.Openable [] "/w" Walk.sampleListing →
        Walk.files ⟨⟨"/w"⟩, []⟩ Walk.sampleDisk = .ok all) ∧
      (∀ walked, Walk.files ⟨⟨"/w"⟩, []⟩ Walk.sampleDisk = .ok walked → walked = all) ∧
      (resolve Walk.sampleDisk ⟨"/w"⟩ "src/**/*.json").outcome =
        .ok (if Walk.sampleDisk.isFile (anchor ⟨"/w"⟩ "src/**/*.json").text then
            [anchor ⟨"/w"⟩ "src/**/*.json"]
          else matching ⟨"/w"⟩ "src/**/*.json" all) :=
  resolve_outcome Walk.site_sampleDisk Walk.tame_sampleListing
    (Walk.site_sampleDisk.noDirLinks (by decide +kernel)) (by decide +kernel) (by decide +kernel)
    (by decide +kernel) (fun _ _ _ _ => by decide +kernel)

example : (resolve Walk.sampleDisk ⟨"/w"⟩ "src/**/*.json").outcome =
    .ok [⟨"/w/src/tsconfig.json"⟩] := by
  decide +kernel

/-- A walk that comes upon a directory too deep to be opened fails, and the pattern with it. -/
theorem resolve_fails_in_depth :
    Walk.Site deepDisk ⟨"/w"⟩ deepListing ∧ deepListing.EveryName IsTame ∧
      deepDisk.NoDirLinks "/w" deepListing ∧ Path.start "/w".toList = .rooted ∧
      Path.start (anchor ⟨"/w"⟩ "*.json").text.toList = .rooted ∧
      (anchor ⟨"/w"⟩ "*.json").relativeTo? ⟨"/w"⟩ = some "*.json" ∧
      ¬∃ found, (resolve deepDisk ⟨"/w"⟩ "*.json").outcome = .ok found := by
  have noFile : ¬deepDisk.isFile (anchor ⟨"/w"⟩ "*.json").text := by decide
  have within : (anchor ⟨"/w"⟩ "*.json").relativeTo? ⟨"/w"⟩ = some "*.json" := by decide
  refine ⟨Walk.site_deepDisk, Walk.tame_deepListing, ?_, by decide, by decide, within, ?_⟩
  · refine Walk.site_deepDisk.noDirLinks fun entry member => ?_
    rw [Walk.leaves_deepListing, List.mem_singleton] at member
    subst member
    decide
  · intro holds
    obtain ⟨found, outcome⟩ := holds
    have long : ¬Walk.Openable [] "/w" deepListing := Walk.not_openable_deepListing (by simp)
    obtain ⟨names, -, -, failed⟩ :=
      Walk.files_error Walk.site_deepDisk.grounded.2 Walk.site_deepDisk.found long
    have tokens : Glob.parse "*.json" =
        .ok [.anyRun, .char '.', .char 'j', .char 's', .char 'o', .char 'n'] := rfl
    have start : (⟨"/w"⟩ : Path).join (String.ofList (plainStart "*.json".toList)) = ⟨"/w"⟩ := by
      decide
    rw [resolve, finding_of_not_isFile noFile within, start,
      Scope.finding_of_isDir (by decide) tokens (by decide), failed] at outcome
    simp only [Finding.outcome, Except.map, reduceCtorEq] at outcome

end Pattern

end ManifestSearch
