import ManifestSearch.Proofs.Glob.SegmentWise
import ManifestSearch.Proofs.Pattern.Rooted

/-!
Patterns segment by segment. A relative pattern of words and pairs of stars stands for the files
below the base whose names its segments fit (`resolve_segmentwise`). It is anchored by putting its
segments behind those of the base, and cut off from them again before it is matched.
-/

namespace ManifestSearch.Pattern

open ManifestSearch.Path (Spelled IsSegment isDrive spelled)

/-- A relative pattern of segments without classes and groups. -/
structure InSegments (pattern : String) : Prop where
  plain : ∀ part ∈ Text.pieces '/' pattern.toList, IsSegment part
  noClass : '[' ∉ pattern.toList
  noGroup : '{' ∉ pattern.toList
  noEnd : '}' ∉ pattern.toList
  free : '\\' ∉ pattern.toList
  noDrive : (Text.pieces '/' pattern.toList).head?.any isDrive = false

instance (pattern : String) : Decidable (InSegments pattern) :=
  decidable_of_iff (_ ∧ _ ∧ _ ∧ _ ∧ _ ∧ _)
    ⟨fun ⟨plain, noClass, noGroup, noEnd, free, noDrive⟩ =>
        ⟨plain, noClass, noGroup, noEnd, free, noDrive⟩,
      fun segmented => ⟨segmented.plain, segmented.noClass, segmented.noGroup, segmented.noEnd,
        segmented.free, segmented.noDrive⟩⟩

variable {disk : Disk} {base : Path} {inside : Listing} {pattern : String}
  {segments : List (List Char)} {names : Location} {held : Leaf} {tokens : List Glob.Token}

namespace InSegments

theorem simple (segmented : InSegments pattern) :
    ∀ part ∈ Text.pieces '/' pattern.toList, ∀ char ∈ part, Glob.IsSimple char := by
  intro part member char inside
  have inPattern := Text.mem_of_mem_pieces member inside
  refine ⟨?_, ?_, ?_, ?_⟩
  · rintro rfl
    exact (segmented.plain part member).noSlash inside
  · rintro rfl
    exact segmented.noClass inPattern
  · rintro rfl
    exact segmented.noGroup inPattern
  · rintro rfl
    exact segmented.noEnd inPattern

theorem parts_eq (segmented : InSegments pattern) :
    parts pattern = Text.pieces '/' pattern.toList := by
  have full : (Text.pieces '/' pattern.toList).filter (· ≠ []) = Text.pieces '/' pattern.toList :=
    List.filter_eq_self.mpr fun part member => by simp [(segmented.plain part member).full]
  have kept : ∀ part ∈ (Text.pieces '/' pattern.toList).filter (· ≠ []), IsSegment part :=
    fun part member => segmented.plain part (List.mem_of_mem_filter member)
  rw [parts, Path.slashed_of_not_mem segmented.free, Path.settled_plain kept, full]

theorem relative (segmented : InSegments pattern) :
    ∀ first ∈ pattern.toList.head?, first ≠ '/' ∧ first ≠ '\\' := by
  intro first head
  refine ⟨?_, fun same => segmented.free (same ▸ List.mem_of_head? head)⟩
  rintro rfl
  have noSlash := Path.joined_head_ne_slash segmented.plain
  rw [Text.joined_pieces] at noSlash
  exact noSlash head

theorem anchored (segmented : InSegments pattern) (spelling : base.Spelled .rooted segments) :
    (anchor base pattern).Spelled .rooted (segments ++ Text.pieces '/' pattern.toList) := by
  have relative : (Path.ofText pattern).isAbsolute = false := by
    rw [ofText_relative segmented.relative, Path.isAbsolute_relative isSegment_of_mem_parts,
      segmented.parts_eq, segmented.noDrive]
  have joined := spelling.join segmented.plain fun part member inside =>
    segmented.free (Text.mem_of_mem_pieces member inside)
  rw [Text.joined_pieces, String.ofList_toList] at joined
  rw [anchor, relative]
  exact joined

theorem within (segmented : InSegments pattern) (spelling : base.Spelled .rooted segments) :
    (anchor base pattern).relativeTo? base = some pattern := by
  rw [spelling.relativeTo?_eq (segmented.anchored spelling) (.inl rfl) (Text.pieces_ne_nil _ _),
    Text.joined_pieces, String.ofList_toList]

end InSegments

/-- A list of files chooses those of names that fit. -/
theorem selects_iff_fits (site : Walk.Site disk base inside)
    (spelling : base.Spelled .rooted segments) (segmented : InSegments pattern)
    (parsed : Glob.parse pattern = .ok tokens) {start : Path}
    (has : Walk.HasFile disk base.text inside names) :
    Scope.selects ⟨pattern, start, some base⟩ tokens ⟨RawText.descend base.text names⟩ ↔
      Glob.Fits (Text.pieces '/' pattern.toList) names := by
  have plain := has.plain site
  have further : segmentsOf names ≠ [] := by simpa [segmentsOf] using has.occupied
  obtain ⟨others, read, fits⟩ := Glob.isMatch_iff_fits segmented.plain segmented.simple
  obtain rfl : tokens = others := Except.ok.inj (parsed.symm.trans read)
  simp only [Scope.selects, Scope.subject?,
    spelling.relativeTo?_eq (spelling.descend plain) (.inl rfl) further]
  exact fits names has.occupied fun name member => (plain name member).noSlash

/-- A pattern of words and pairs of stars stands for the files below the base whose names its
segments fit. Only a directory too deep to be opened comes between, where the walk enters it. -/
theorem resolve_segmentwise (site : Walk.Site disk base inside) (tame : inside.EveryName IsTame)
    (noLinks : disk.NoDirLinks base.text inside) (single : Path.start base.text.toList = .rooted)
    (segmented : InSegments pattern) (wild : pattern.toList.any isWild)
    (noFile : ¬disk.isFile (anchor base pattern).text)
    (short : Walk.OpenableFrom ((plainDirs pattern.toList).map String.ofList) base.text inside) :
    ∃ found, (resolve disk base pattern).outcome = .ok found ∧
      (∀ file ∈ found, ∃ names, Walk.HasFile disk base.text inside names ∧
        file = ⟨RawText.descend base.text names⟩) ∧
      ∀ names, Walk.HasFile disk base.text inside names →
        (⟨RawText.descend base.text names⟩ ∈ found ↔
          Glob.Fits (Text.pieces '/' pattern.toList) names) := by
  obtain ⟨segments, spelling, -⟩ := site.grounded.spelled_rooted single
  obtain ⟨tokens, parsed, -⟩ := Glob.isMatch_iff_fits segmented.plain segmented.simple
  have chosen (files : List Path) : matching base pattern files =
      files.filter (Scope.selects ⟨pattern, base, some base⟩ tokens) := by
    simp only [matching, if_pos wild, parsed]
  have outcome : (resolve disk base pattern).outcome =
      .ok (matching base pattern (Walk.filesBelow disk [] base.text inside)) := by
    rw [resolve, finding_of_not_isFile noFile (segmented.within spelling)]
    exact finding_outcome site tame noLinks (fun _ _ _ => short) spelling segmented.plain
      (fun part member inside => segmented.free (Text.mem_of_mem_pieces member inside))
      (Text.joined_pieces '/' pattern.toList).symm
  rw [chosen] at outcome
  refine ⟨_, outcome, ?_, ?_⟩
  · intro file member
    obtain ⟨names, has, -, same⟩ := (site.mem_filesBelow_iff tame).mp (List.mem_filter.mp member).1
    exact ⟨names, has, same⟩
  · intro names has
    have listed : (⟨RawText.descend base.text names⟩ : Path) ∈
        Walk.filesBelow disk [] base.text inside :=
      (site.mem_filesBelow_iff tame).mpr ⟨names, has, by simp, rfl⟩
    rw [List.mem_filter, and_iff_right listed]
    exact selects_iff_fits site spelling segmented parsed has

theorem resolve_segmentwise_below_src :
    ∃ found, (resolve Walk.sampleDisk ⟨"/w"⟩ "src/**/t*.json").outcome = .ok found ∧
      (∀ file ∈ found, ∃ names, Walk.HasFile Walk.sampleDisk "/w" Walk.sampleListing names ∧
        file = ⟨RawText.descend "/w" names⟩) ∧
      ∀ names, Walk.HasFile Walk.sampleDisk "/w" Walk.sampleListing names →
        (⟨RawText.descend "/w" names⟩ ∈ found ↔
          Glob.Fits (Text.pieces '/' "src/**/t*.json".toList) names) :=
  resolve_segmentwise Walk.site_sampleDisk Walk.tame_sampleListing
    (Walk.site_sampleDisk.noDirLinks (by decide +kernel)) (by decide +kernel) (by decide +kernel)
    (by decide +kernel) (by decide +kernel) (by decide +kernel)

/-- A pattern whose walk comes upon a directory too deep to be opened stands for nothing. -/
theorem not_ok_of_not_openable (site : Walk.Site disk base inside)
    (within : (anchor base pattern).relativeTo? base = some pattern)
    (start : base.join (String.ofList (plainStart pattern.toList)) = base)
    (wild : pattern.toList.any isWild) (parsed : Glob.parse pattern = .ok tokens)
    (noFile : ¬disk.isFile (anchor base pattern).text)
    (long : ¬Walk.Openable [] base.text inside) :
    ¬∃ found, (resolve disk base pattern).outcome = .ok found := by
  rintro ⟨found, outcome⟩
  obtain ⟨names, -, -, failed⟩ := @Walk.files_error disk _ _ _ site.grounded.2 site.found long
  have isDir : disk.isDir base.text := by simp [Disk.isDir, site.found]
  have walked : Scope.finding ⟨pattern, base, some base⟩ disk = _ :=
    Scope.finding_of_isDir wild parsed isDir
  rw [resolve, finding_of_not_isFile noFile within, start, walked, failed] at outcome
  simp only [Finding.outcome, Except.map, reduceCtorEq] at outcome

theorem resolve_segmentwise_fails_in_depth :
    Walk.Site deepDisk ⟨"/w"⟩ deepListing ∧ deepListing.EveryName IsTame ∧
      deepDisk.NoDirLinks "/w" deepListing ∧ Path.start "/w".toList = .rooted ∧
      InSegments "*.json" ∧ "*.json".toList.any isWild ∧
      ¬deepDisk.isFile (anchor ⟨"/w"⟩ "*.json").text ∧
      Walk.HasFile deepDisk "/w" deepListing ["tsconfig.json"] ∧
      Glob.Fits (Text.pieces '/' "*.json".toList) ["tsconfig.json"] ∧
      ¬∃ found, (resolve deepDisk ⟨"/w"⟩ "*.json").outcome = .ok found := by
  have noFile : ¬deepDisk.isFile (anchor ⟨"/w"⟩ "*.json").text := by decide
  have parsed : Glob.parse "*.json" =
      .ok [.anyRun, .char '.', .char 'j', .char 's', .char 'o', .char 'n'] := rfl
  refine ⟨Walk.site_deepDisk, Walk.tame_deepListing, Walk.noDirLinks_deepDisk, by decide, by decide,
    by decide, noFile, ⟨.file "", rfl, rfl⟩, ?_, ?_⟩
  · refine .word (by decide) (.run (Glob.encoded "tsconfig") ?_) .none
    exact (Glob.describes_plain (by decide) (by decide)).mpr rfl
  · exact not_ok_of_not_openable Walk.site_deepDisk (by decide) (by decide) (by decide) parsed
      noFile (Walk.not_openable_deepListing (by simp))

end ManifestSearch.Pattern
