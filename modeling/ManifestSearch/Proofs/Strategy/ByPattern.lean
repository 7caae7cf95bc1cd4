import ManifestSearch.Proofs.Pattern.SegmentWise
import ManifestSearch.Proofs.Strategy.Discovery

/-!
Searching by a name and by a pattern. Behind two stars a plain file name is a pattern for the files
of that name anywhere below the base, so a search by name finds what the pattern stands for, without
the files that have an excluded directory above them (`search_by_pattern`).
-/

namespace ManifestSearch

open ManifestSearch.Path (IsSegment)

variable {disk : Disk} {base : Path} {inside : Listing} {context : Context}
  {target : Discovered.Target} {names : Location} {name : String} {word : List Char}
  {segments : List (List Char)} {tokens : List Glob.Token}

namespace Glob

/-- Two stars and a word without wildcards stand for any names that end in that word. -/
theorem fits_anywhere (noRun : '*' ∉ name.toList) (noOne : '?' ∉ name.toList) :
    Fits [twoStars, name.toList] names ↔ names.getLast? = some name := by
  have single : name.toList ≠ twoStars := by
    intro stars
    simp [stars, twoStars] at noRun
  rw [fits_dirs (by simp)]
  simp only [fits_word single, fits_nil, describes_plain noRun noOne]
  constructor
  · rintro ⟨above, _, rfl, last, _, rfl, same, rfl⟩
    rw [encoded_inj.mp same]
    simp
  · intro ending
    have whole := (List.dropLast_append_getLast? name ending).symm
    exact ⟨names.dropLast, [name], whole, name, [], rfl, rfl, rfl⟩

end Glob

namespace Pattern

/-- The pattern for files of a name anywhere below a base. -/
def anywhere (name : String) : String := "**/" ++ name

theorem pieces_anywhere (noSlash : '/' ∉ name.toList) :
    Text.pieces '/' (anywhere name).toList = [Glob.twoStars, name.toList] := by
  have text : (anywhere name).toList = Glob.twoStars ++ '/' :: name.toList := by
    simp [anywhere, Glob.twoStars]
  rw [text, Text.pieces_append, Text.pieces_of_not_mem noSlash]
  rfl

theorem plainStart_anywhere (noSlash : '/' ∉ name.toList) :
    plainStart (anywhere name).toList = [] := by
  have head : (anywhere name).toList.head? = some '*' := by simp [anywhere]
  have dirs : plainDirs (anywhere name).toList = [] := by
    rw [plainDirs, pieces_anywhere noSlash]
    rfl
  simp [plainStart, dirs, Text.joined, head]

/-- A name that is one segment, of characters that stand for themselves in a pattern. -/
structure IsLiteral (name : String) : Prop where
  segment : IsSegment name.toList
  plain : name.toList.all Glob.isPlain
  free : '\\' ∉ name.toList

instance (name : String) : Decidable (IsLiteral name) :=
  decidable_of_iff (_ ∧ _ ∧ _)
    ⟨fun ⟨segment, plain, free⟩ => ⟨segment, plain, free⟩,
      fun literal => ⟨literal.segment, literal.plain, literal.free⟩⟩

namespace IsLiteral

theorem not_mem (literal : IsLiteral name) {char : Char} (wild : Glob.isPlain char = false) :
    char ∉ name.toList := by
  intro member
  have plain := List.all_eq_true.mp literal.plain char member
  simp [wild] at plain

theorem inSegments (literal : IsLiteral name) : InSegments (anywhere name) := by
  have cut := pieces_anywhere literal.segment.noSlash
  refine ⟨?_, ?_, ?_, ?_, ?_, ?_⟩
  · rw [cut]
    simp only [List.forall_mem_cons]
    exact ⟨by decide, literal.segment, by simp⟩
  · simpa [anywhere] using literal.not_mem (show Glob.isPlain '[' = false from rfl)
  · simpa [anywhere] using literal.not_mem (show Glob.isPlain '{' = false from rfl)
  · simpa [anywhere] using literal.not_mem (show Glob.isPlain '}' = false from rfl)
  · simpa [anywhere] using literal.free
  · rw [cut]
    rfl

end IsLiteral

/-- A base without an entry of two stars has no file that such a pattern names. -/
theorem not_isFile_anywhere (site : Walk.Site disk base inside)
    (spelling : base.Spelled .rooted segments) (unnamed : inside.find? "**" = none)
    (literal : IsLiteral name) : ¬disk.isFile (anchor base (anywhere name)).text := by
  have anchored := literal.inSegments.anchored spelling
  have plain : ∀ other ∈ ["**", name], IsSegment other.toList := by
    simp only [List.forall_mem_cons]
    exact ⟨by decide, literal.segment, by simp⟩
  rw [pieces_anywhere literal.segment.noSlash] at anchored
  rw [anchored.unique (spelling.descend plain)]
  exact Disk.not_isFile_of_missing spelling site.found unnamed plain (by simp)

/-- The walk for such a pattern is one of the whole base. -/
theorem resolve_anywhere (site : Walk.Site disk base inside)
    (spelling : base.Spelled .rooted segments) (unnamed : inside.find? "**" = none)
    (literal : IsLiteral name) : ∃ tokens, Glob.parse (anywhere name) = .ok tokens ∧
      (resolve disk base (anywhere name)).outcome = (Walk.files ⟨base, []⟩ disk).map fun files =>
        files.filter (Scope.selects ⟨anywhere name, base, some base⟩ tokens) := by
  have segmented := literal.inSegments
  obtain ⟨tokens, parsed, -⟩ := Glob.isMatch_iff_fits segmented.plain segmented.simple
  have start : base.join (String.ofList (plainStart (anywhere name).toList)) = base := by
    rw [plainStart_anywhere literal.segment.noSlash]
    have joined := @Path.Spelled.join base .rooted segments [] spelling (by simp) (by simp)
    exact joined.unique (by simpa using spelling)
  have wild : (anywhere name).toList.any isWild := by simp [anywhere, isWild]
  have isDir : disk.isDir base.text := by simp [Disk.isDir, site.found]
  have walked : Scope.finding ⟨anywhere name, base, some base⟩ disk = _ :=
    Scope.finding_of_isDir wild parsed isDir
  refine ⟨tokens, parsed, ?_⟩
  rw [resolve, finding_of_not_isFile (not_isFile_anywhere site spelling unnamed literal)
    (segmented.within spelling), start, walked]
  rfl

end Pattern

namespace Discovered

open Pattern (anywhere IsLiteral)

/-- No directory on the way from the root to a file has the excluded name. -/
def outside (target : Target) (file : Path) : Bool :=
  !file.parent?.any fun directory => directory.hasSegment target.excluded

theorem outside_iff (spelling : base.Spelled .rooted segments)
    (plain : ∀ name ∈ names, IsSegment name.toList) (occupied : names ≠ []) :
    outside target ⟨RawText.descend base.text names⟩ ↔
      target.excluded ∉ base.segments ∧ target.excluded ∉ names.dropLast := by
  obtain ⟨front, last, rfl⟩ : ∃ front last, names = front ++ [last] :=
    ⟨_, _, (List.dropLast_concat_getLast occupied).symm⟩
  have plainFront : ∀ name ∈ front, IsSegment name.toList := fun name member =>
    plain name (by simp [member])
  have longer : Path.Spelled ⟨RawText.descend base.text (front ++ [last])⟩ .rooted
      (segments ++ segmentsOf front ++ [last.toList]) := by
    simpa [segmentsOf] using spelling.descend plain
  have above := (spelling.descend plainFront).parent?_eq longer (.inl rfl)
  rw [outside, above, List.dropLast_concat]
  simp [Path.hasSegment, spelling.segments_descend plainFront]

/-- The pattern selects the files that have the name. -/
theorem selects_anywhere (site : Walk.Site disk base inside)
    (spelling : base.Spelled .rooted segments) (literal : IsLiteral target.fileName)
    (parsed : Glob.parse (anywhere target.fileName) = .ok tokens)
    (has : Walk.HasFile disk base.text inside names) :
    Pattern.Scope.selects ⟨anywhere target.fileName, base, some base⟩ tokens
        ⟨RawText.descend base.text names⟩ ↔
      target.isNameOf ⟨RawText.descend base.text names⟩ := by
  have occupied := has.occupied
  rw [Pattern.selects_iff_fits site spelling literal.inSegments parsed has,
    Pattern.pieces_anywhere literal.segment.noSlash,
    Glob.fits_anywhere (literal.not_mem rfl) (literal.not_mem rfl)]
  obtain ⟨held, stands, -⟩ := has
  rw [Target.isNameOf, site.fileName?_descend occupied stands, beq_iff_eq]

/-- Among all files, those that the pattern selects outside of excluded directories are those that
a walk lists that passes by such directories. -/
theorem filter_filesBelow_eq (site : Walk.Site disk context.base inside)
    (tame : inside.EveryName IsTame) (spelling : context.base.Spelled .rooted segments)
    (literal : IsLiteral target.fileName)
    (parsed : Glob.parse (anywhere target.fileName) = .ok tokens)
    (free : target.excluded ∉ context.base.segments) :
    (Walk.filesBelow disk [target.excluded] context.base.text inside).filter target.isNameOf =
      ((Walk.filesBelow disk [] context.base.text inside).filter (Pattern.Scope.selects
        ⟨anywhere target.fileName, context.base, some context.base⟩ tokens)).filter
          (outside target) := by
  refine eq_of_precedes ((filesBelow_pairwise site tame _).filter _)
    (((filesBelow_pairwise site tame _).filter _).filter _) fun file => ?_
  simp only [List.mem_filter, site.mem_filesBelow_iff tame]
  have clear {names : Location} (has : Walk.HasFile disk context.base.text inside names) :
      outside target ⟨RawText.descend context.base.text names⟩ ↔
        ∀ name ∈ names.dropLast, name ∉ [target.excluded] := by
    rw [outside_iff spelling (has.plain site) has.occupied, and_iff_right free]
    simp only [List.mem_singleton]
    exact List.forall_mem_ne'.symm
  constructor
  · rintro ⟨⟨names, has, passed, rfl⟩, named⟩
    have selected := (selects_anywhere site spelling literal parsed has).mpr named
    exact ⟨⟨⟨names, has, by simp, rfl⟩, selected⟩, (clear has).mpr passed⟩
  · rintro ⟨⟨⟨names, has, -, rfl⟩, selected⟩, passed⟩
    exact ⟨⟨names, has, (clear has).mp passed, rfl⟩,
      (selects_anywhere site spelling literal parsed has).mp selected⟩

theorem filter_outside_of_excluded (site : Walk.Site disk context.base inside)
    (tame : inside.EveryName IsTame) (spelling : context.base.Spelled .rooted segments)
    (excluded : target.excluded ∈ context.base.segments) (chosen : Path → Bool) :
    ((Walk.filesBelow disk [] context.base.text inside).filter chosen).filter (outside target) =
      [] := by
  refine List.filter_eq_nil_iff.mpr fun file member clear => ?_
  obtain ⟨names, has, -, rfl⟩ := (site.mem_filesBelow_iff tame).mp (List.mem_filter.mp member).1
  exact ((outside_iff spelling (has.plain site) has.occupied).mp clear).1 excluded

/-- A search by name finds what two stars and the name stand for as a pattern, in the same order,
but for the files that have an excluded directory above them. The pattern stands for something
unless a directory is too deep to be opened. -/
theorem search_by_pattern (site : Walk.Site disk context.base inside)
    (tame : inside.EveryName IsTame) (single : Path.start context.base.text.toList = .rooted)
    (unnamed : inside.find? "**" = none) (literal : IsLiteral target.fileName) :
    (Walk.Openable [] context.base.text inside → ∃ matched,
      (Pattern.resolve disk context.base (anywhere target.fileName)).outcome = .ok matched) ∧
    ∀ matched,
      (Pattern.resolve disk context.base (anywhere target.fileName)).outcome = .ok matched →
      (search target disk context).outcome = .ok (matched.filter (outside target)) := by
  obtain ⟨segments, spelling, -⟩ := site.grounded.spelled_rooted single
  obtain ⟨tokens, parsed, outcome⟩ := Pattern.resolve_anywhere site spelling unnamed literal
  rw [outcome]
  constructor
  · intro short
    rw [Walk.files_eq site.grounded.2 site.found short]
    exact ⟨_, rfl⟩
  · intro matched walked
    cases listed : Walk.files ⟨context.base, []⟩ disk with
    | error failure => simp [listed, Except.map] at walked
    | ok all =>
        have opened := Walk.openable_of_files site.grounded.2 site.found listed
        have short := opened.skipping site.ordered [target.excluded]
        obtain rfl := Walk.files_ok site.grounded.2 site.found listed
        rw [listed] at walked
        cases walked
        by_cases excluded : context.base.hasSegment target.excluded
        · have inBase : target.excluded ∈ context.base.segments := by
            simpa [Path.hasSegment] using excluded
          rw [search_of_excluded excluded, filter_outside_of_excluded site tame spelling inBase]
        · have free : target.excluded ∉ context.base.segments := by
            simpa [Path.hasSegment] using excluded
          rw [search_of_not_excluded excluded, Walk.files_eq site.grounded.2 site.found short]
          exact congrArg Except.ok (filter_filesBelow_eq site tame spelling literal parsed free)

theorem search_by_pattern_in_sample :
    let target : Target := ⟨"tsconfig.json", "node_modules"⟩
    let resolved := (Pattern.resolve Walk.sampleDisk ⟨"/w"⟩ (anywhere "tsconfig.json")).outcome
    (∃ matched, resolved = .ok matched) ∧ ∀ matched, resolved = .ok matched →
      (search target Walk.sampleDisk { base := ⟨"/w"⟩ }).outcome =
        .ok (matched.filter (outside target)) := by
  intro target resolved
  obtain ⟨succeeds, found⟩ := @search_by_pattern Walk.sampleDisk Walk.sampleListing
    { base := ⟨"/w"⟩ } target Walk.site_sampleDisk Walk.tame_sampleListing (by decide) (by decide)
    (by decide)
  exact ⟨succeeds (by decide +kernel), found⟩

/-- A search by name passes by a directory too deep to be opened if it is excluded, and the pattern
does not. -/
theorem search_by_pattern_fails_in_depth :
    let target : Target := ⟨"tsconfig.json", "d"⟩
    Walk.Site deepDisk ⟨"/w"⟩ deepListing ∧ deepListing.EveryName IsTame ∧
      Path.start "/w".toList = .rooted ∧ deepListing.find? "**" = none ∧
      IsLiteral target.fileName ∧
      (search target deepDisk { base := ⟨"/w"⟩ }).outcome = .ok [⟨"/w/tsconfig.json"⟩] ∧
      ¬∃ matched, (Pattern.resolve deepDisk ⟨"/w"⟩ (anywhere target.fileName)).outcome =
        .ok matched := by
  intro target
  have literal : IsLiteral "tsconfig.json" := by decide
  have noFile : ¬deepDisk.isFile (Pattern.anchor ⟨"/w"⟩ (anywhere "tsconfig.json")).text := by
    decide
  refine ⟨Walk.site_deepDisk, Walk.tame_deepListing, by decide, by decide, literal, ?_, ?_⟩
  · have free : ¬Path.hasSegment ⟨"/w"⟩ target.excluded := by decide
    have passed : Walk.Openable ["d"] "/w" deepListing := by
      simp [Walk.Openable, deepListing, Listing.dirs]
    rw [search_of_not_excluded free,
      Walk.files_eq Walk.site_deepDisk.grounded.2 Walk.site_deepDisk.found passed, Walk.filesBelow,
      Walk.leaves_deepListing]
    decide
  · obtain ⟨tokens, parsed, -⟩ :=
      Glob.isMatch_iff_fits literal.inSegments.plain literal.inSegments.simple
    exact Pattern.not_ok_of_not_openable Walk.site_deepDisk (by decide) (by decide) (by decide)
      parsed noFile (Walk.not_openable_deepListing (by simp))

end Discovered

end ManifestSearch
