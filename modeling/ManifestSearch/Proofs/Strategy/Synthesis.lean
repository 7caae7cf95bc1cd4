import ManifestSearch.Proofs.Manifest.Reading
import ManifestSearch.Proofs.Tree.Writing
import ManifestSearch.Proofs.Walk.Site
import ManifestSearch.Strategy.Synthesis

/-!
What a generated manifest lists. The files are those that the selector selects among all files
below the base before anything is made; the directories that the search does not enter hold none of
them. The manifest itself gets a text that named nothing, so it is not among them.
-/

namespace ManifestSearch

variable {world next : World} {context : Context} {synthesis : Synthesis} {inside : Listing}
  {path : Path} {files listed : List Path} {stem ending content : String} {folder : TempFolder}
  {extensions excluded : List String}

namespace TempFolder

theorem makeFresh_ok {make : Disk → String → Except Fault Disk} {directory made : String}
    (drawn : makeFresh make directory stem ending world = (.ok made, next)) :
    (∃ tag, made = place directory stem ending tag) ∧ make world.disk made = .ok next.disk := by
  rw [makeFresh] at drawn
  split at drawn
  · rename_i first
    cases drawn
    exact World.makeNew_ok first
  · simp at drawn
  · simp at drawn

/-- A file is written after its folder was made, under a drawn name. -/
theorem writeNew_made (written : folder.writeNew stem ending content world = (.ok path, next)) :
    ∃ grown tag, world.disk.makeDirs folder.dir.text = (.ok (), grown) ∧
      path = Path.ofText (place folder.dir.text stem ending tag) ∧
      grown.create (place folder.dir.text stem ending tag) content = .ok next.disk := by
  rw [writeNew, allocate] at written
  split at written
  · simp at written
  · rename_i grown dirs
    cases drawn : makeFresh (fun disk text => disk.create text content) folder.dir.text stem ending
        { world with disk := grown } with
    | mk outcome last =>
        cases outcome with
        | error failure => simp [drawn, settle] at written
        | ok made =>
            obtain ⟨⟨tag, rfl⟩, created⟩ := makeFresh_ok drawn
            simp only [drawn, settle, Prod.mk.injEq, Except.ok.injEq] at written
            obtain ⟨shown, rfl⟩ := written
            exact ⟨grown, tag, dirs, shown.symm, created⟩

/-- A new file is made under a text that named nothing, and holds its content. -/
theorem writeNew_wrote (rooted : startsAtRoot folder.dir.text)
    (written : folder.writeNew stem ending content world = (.ok path, next)) :
    ∃ tag place, path = Path.ofText (TempFolder.place folder.dir.text stem ending tag) ∧
      Disk.Wrote world.disk next.disk (TempFolder.place folder.dir.text stem ending tag) content
        place := by
  obtain ⟨grown, tag, dirs, shown, created⟩ := writeNew_made written
  obtain ⟨place, wrote⟩ := Disk.wrote_of_create (RawText.startsAtRoot_join rooted _) dirs created
  exact ⟨tag, place, shown, wrote⟩

end TempFolder

namespace Synthesis

/-- The text of the file that is written under a drawn name. -/
def fileFor (synthesis : Synthesis) (tag : Tag) : String :=
  TempFolder.place synthesis.folder.dir.text synthesis.affixes.1 synthesis.affixes.2 tag

theorem startsAtRoot_fileFor (rooted : startsAtRoot synthesis.folder.dir.text) (tag : Tag) :
    startsAtRoot (synthesis.fileFor tag) :=
  RawText.startsAtRoot_join rooted _

/-- A search that generates a manifest writes one of the selected files with its options. -/
theorem run_wrote (rooted : startsAtRoot synthesis.folder.dir.text)
    (standard : context.mode = .standard)
    (succeeds : (synthesis.run context world).report.outcome = .ok files) :
    ∃ listed tag content place, synthesis.selected world.disk context.base = .ok listed ∧
      files = [Path.ofText (synthesis.fileFor tag)] ∧
      Manifest.Holds content listed synthesis.options ∧
      Disk.Wrote world.disk (synthesis.run context world).state.disk (synthesis.fileFor tag)
        content place := by
  have allowed : ¬(!context.mode.allowsTempFiles) = true := by
    simp [standard, HostMode.allowsTempFiles]
  simp only [run, if_neg allowed] at succeeds ⊢
  cases chosen : synthesis.selected world.disk context.base with
  | error failure => simp [chosen, Report.fail] at succeeds
  | ok listed =>
      simp only [chosen, write] at succeeds ⊢
      split at succeeds
      · simp [Report.fail] at succeeds
      · rename_i path next written
        obtain ⟨tag, place, shown, wrote⟩ := TempFolder.writeNew_wrote rooted written
        cases succeeds
        exact ⟨listed, tag, _, place, rfl, by rw [shown]; rfl, Manifest.holds_ofPaths listed _, wrote⟩

theorem run_ok (rooted : startsAtRoot synthesis.folder.dir.text)
    (standard : context.mode = .standard)
    (succeeds : (synthesis.run context world).report.outcome = .ok files) :
    ∃ listed tag made, synthesis.selected world.disk context.base = .ok listed ∧
      made = TempFolder.place synthesis.folder.dir.text synthesis.affixes.1 synthesis.affixes.2 tag ∧
      files = [Path.ofText made] ∧
      Manifest.StandsAt (synthesis.run context world).state.disk made listed synthesis.options ∧
      (∀ location, world.disk.reach false made ≠ .ok (.taken location)) ∧
      made.utf8ByteSize < Disk.pathLimit := by
  obtain ⟨listed, tag, content, place, chosen, shown, holds, wrote⟩ := run_wrote rooted standard succeeds
  have rooted := startsAtRoot_fileFor rooted tag
  have reads := wrote.read rooted (.refl _)
  exact ⟨listed, tag, _, chosen, rfl, shown, ⟨content, reads, holds⟩, wrote.free,
    Disk.short_of_read rooted reads⟩

theorem selected_ok {disk : Disk} (site : Walk.Site disk context.base inside)
    (chosen : synthesis.selected disk context.base = .ok listed) :
    listed = (Walk.filesBelow disk synthesis.selector.skippedDirs context.base.text inside).filter
      synthesis.selector.selects := by
  rw [selected] at chosen
  exact Walk.files_map_ok site.grounded.2 site.found chosen

/-- Directories that the search does not enter hold no selected files. -/
theorem filter_filesBelow {disk : Disk} (site : Walk.Site disk context.base inside)
    (tame : inside.EveryName IsTame) :
    (Walk.filesBelow disk excluded context.base.text inside).filter
        (Selector.byExtension extensions excluded).selects =
      (Walk.filesBelow disk [] context.base.text inside).filter
        (Selector.byExtension extensions excluded).selects := by
  rw [Walk.filesBelow, Walk.filesBelow, Listing.leaves_eq_filter]
  refine Walk.filter_listed fun entry member selected => ?_
  have stands := site.at?_of_mem_leaves member
  rw [site.ofText_descend tame stands] at selected
  simp only [Selector.byExtension] at selected
  split at selected
  · contradiction
  · simp only [Bool.and_eq_true, Bool.not_eq_true', List.any_eq_false, Path.hasSegment,
      site.segments_descend stands, decide_eq_true_eq, List.mem_append, not_or] at selected
    refine List.all_eq_true.mpr fun name onTheWay => ?_
    have inNames := List.dropLast_subset entry.1 onTheWay
    exact decide_eq_true fun passed => (selected.2 name passed).2 inNames

end Synthesis

def IsPlainText (text : String) : Prop := '/' ∉ text.toList ∧ '\\' ∉ text.toList

instance (text : String) : Decidable (IsPlainText text) := inferInstanceAs (Decidable (_ ∧ _))

theorem Tag.isPlainText (tag : Tag) : IsPlainText tag.text := by
  have letters : ∀ place, letter place ≠ '/' ∧ letter place ≠ '\\' := by decide +kernel
  simp only [IsPlainText, Tag.text, String.toList_ofList, List.mem_map, not_exists, not_and]
  exact ⟨fun place _ => (letters place).1, fun place _ => (letters place).2⟩

theorem isSegment_generated (tag : Tag) (stemPlain : IsPlainText stem)
    (endingPlain : IsPlainText ending) :
    Path.IsSegment (stem ++ tag.text ++ ending).toList ∧
      '\\' ∉ (stem ++ tag.text ++ ending).toList := by
  have tagPlain := tag.isPlainText
  have size : 6 ≤ (stem ++ tag.text ++ ending).toList.length := by
    simp only [String.toList_append, Tag.text, String.toList_ofList, List.length_append,
      List.length_map, tag.six]
    omega
  refine ⟨⟨?_, ?_, ?_, ?_⟩, ?_⟩
  · intro same
    simp [same] at size
  · intro same
    simp [same] at size
  · intro same
    simp [same] at size
  · simp [stemPlain.1, tagPlain.1, endingPlain.1]
  · simp [stemPlain.2, tagPlain.2, endingPlain.2]

namespace Synthesis

theorem text_ne_of_free {disk : Disk} {made : String} {file : Path}
    (site : Walk.Site disk context.base inside) (tame : inside.EveryName IsTame)
    (short : made.utf8ByteSize < Disk.pathLimit)
    (free : ∀ location, disk.reach false made ≠ .ok (.taken location))
    (member : file ∈ Walk.filesBelow disk [] context.base.text inside) : file.text ≠ made := by
  obtain ⟨names, held, inLeaves, -, rfl⟩ := Walk.mem_filesBelow.mp member
  have stands := site.at?_of_mem_leaves inLeaves
  rw [site.ofText_descend tame stands]
  intro same
  subst same
  -- A listed text names its entry without following a link at its end, so it was not free.
  obtain ⟨start, segments, spelling, -⟩ := site.grounded.spelled
  have node : disk.node false (RawText.descend context.base.text names) = .ok (.leaf held) :=
    Disk.node_descend spelling site.found (Listing.ne_nil_of_mem_leaves inLeaves)
      (site.valid stands) short stands (by simp)
  obtain ⟨place, reached, -⟩ := Disk.node_ok (spelling.descend (site.plain stands)).startsAtRoot node
  exact free place reached

/-- A search that generates a manifest answers its path alone, and the manifest lists the selected
files among all that were below the base before it was made. -/
theorem run_exact (site : Walk.Site world.disk context.base inside)
    (tame : inside.EveryName IsTame) (grounded : synthesis.folder.dir.Grounded)
    (selector : synthesis.selector = .byExtension extensions excluded)
    (standard : context.mode = .standard)
    (succeeds : (synthesis.run context world).report.outcome = .ok files) :
    let all := Walk.filesBelow world.disk [] context.base.text inside
    let selected := all.filter synthesis.selector.selects
    (∀ walked, Walk.files ⟨context.base, []⟩ world.disk = .ok walked → walked = all) ∧
      ∃ made content, files = [Path.ofText made] ∧
        (synthesis.run context world).state.disk.read made = .ok content ∧
        Manifest.Holds content selected synthesis.options ∧
        (∀ file ∈ selected, file.text ≠ made) ∧
        (IsPlainText synthesis.affixes.1 → IsPlainText synthesis.affixes.2 →
          Path.ofText made = ⟨made⟩) := by
  intro all selected
  refine ⟨fun walked ended => Walk.files_ok site.grounded.2 site.found ended, ?_⟩
  obtain ⟨listed, tag, made, chosen, named, whole, ⟨content, reads, holds⟩, free, short⟩ :=
    run_ok grounded.2 standard succeeds
  have same : listed = selected := by
    rw [selected_ok site chosen]
    simp only [selected, all, selector]
    exact filter_filesBelow site tame
  rw [same] at holds
  refine ⟨made, content, whole, reads, holds, ?_, ?_⟩
  · intro file member
    exact text_ne_of_free site tame short free (List.mem_filter.mp member).1
  · intro stemPlain endingPlain
    obtain ⟨start, segments, spelling, noBackslash⟩ := grounded.spelled
    obtain ⟨plain, tame⟩ := isSegment_generated tag stemPlain endingPlain
    have spelled : Path.ofText (RawText.descend synthesis.folder.dir.text
        [synthesis.affixes.1 ++ tag.text ++ synthesis.affixes.2]) = ⟨_⟩ :=
      spelling.ofText_descend noBackslash (by simpa using plain) (by simpa using tame)
    rw [named]
    exact spelled

def sampleSynthesis : Synthesis where
  folder := { dir := ⟨"/w/src/made"⟩ }
  selector := .byExtension ["ts", "json"] ["node_modules"]
  options := [("strict", .bool true)]

def sampleWorld : World := ⟨Walk.sampleDisk, fun _ => default⟩

theorem outcome_in_sample : (sampleSynthesis.run { base := ⟨"/w"⟩ } sampleWorld).report.outcome =
    .ok [⟨"/w/src/made/tsconfig-aaaaaa.json"⟩] := by
  decide +kernel

theorem run_exact_in_sample :
    let all := Walk.filesBelow Walk.sampleDisk [] "/w" Walk.sampleListing
    let selected := all.filter sampleSynthesis.selector.selects
    (∀ walked, Walk.files ⟨⟨"/w"⟩, []⟩ Walk.sampleDisk = .ok walked → walked = all) ∧
      ∃ made content, [⟨"/w/src/made/tsconfig-aaaaaa.json"⟩] = [Path.ofText made] ∧
        (sampleSynthesis.run { base := ⟨"/w"⟩ } sampleWorld).state.disk.read made = .ok content ∧
        Manifest.Holds content selected sampleSynthesis.options ∧
        Manifest.read? content = some ⟨["/w/src/app.ts", "/w/src/tsconfig.json", "/w/tsconfig.json"],
          [("strict", .bool true)]⟩ ∧
        (∀ file ∈ selected, file.text ≠ made) ∧
        (IsPlainText sampleSynthesis.affixes.1 → IsPlainText sampleSynthesis.affixes.2 →
          Path.ofText made = ⟨made⟩) := by
  obtain ⟨walked, made, content, whole, reads, holds, fresh, shown⟩ :=
    run_exact Walk.site_sampleDisk Walk.tame_sampleListing (by decide +kernel) rfl rfl
      outcome_in_sample
  have ordered : Keyed.Ordered sampleSynthesis.options := by
    unfold Keyed.Ordered
    decide +kernel
  have back := holds.reads ⟨ordered, trivial, trivial⟩ (by decide +kernel)
  exact ⟨walked, made, content, whole, reads, holds, back, fresh, shown⟩

end Synthesis

end ManifestSearch
