import ManifestSearch.Proofs.Chain.Outcomes
import ManifestSearch.Proofs.TempFolder.Affixes
import ManifestSearch.Proofs.Tree.Making
import ManifestSearch.Proofs.Tree.Soundness

/-!
What a search changes. Only the strategy that generates a manifest changes anything, and only if it
is asked at all: it adds one file in its folder and the directories that were missing on the way
there. If it fails, it may leave such directories behind, and nothing else. In each case the tree is
an intact one again (`full_intact`).
-/

namespace ManifestSearch

open ManifestSearch.Path (Spelled)

variable {world next : World} {context : Context} {convention : Convention}
  {synthesis : Synthesis} {folder : TempFolder} {path : Path} {files : List Path}
  {failure : Failure} {stem ending content : String}

/-- A tree with one file more, at `path` and directly in a folder. Beside it there are new
directories, all on the way to the folder, and the folder itself if it was missing. -/
structure TempFolder.Gains (folder : TempFolder) (before after : Disk) (path : Path)
    (content : String) (top : Location) (name : String) : Prop where
  folderAt : after.reach true folder.dir.text = .ok (.taken top)
  fileAt : after.reach true path.text = .ok (.taken (top ++ [name]))
  holds : after.root.at? (top ++ [name]) = some (.leaf (.file content))
  fresh : before.root.at? (top ++ [name]) = none
  way : ∀ location, location <+: top →
    (before.root.entryAt? location = none ∨ before.root.entryAt? location = some .dir) ∧
      after.root.entryAt? location = some .dir
  rest : ∀ location, ¬location <+: top → location ≠ top ++ [name] →
    after.root.entryAt? location = before.root.entryAt? location
  only : after = { before with root := after.root }

namespace TempFolder

theorem makeFresh_error {make : Disk → String → Except Fault Disk} {directory : String}
    (drawn : makeFresh make directory stem ending world = (.error failure, next)) :
    next.disk = world.disk := by
  rw [makeFresh] at drawn
  split at drawn
  · simp at drawn
  · rename_i refused
    cases drawn
    exact World.makeNew_error refused
  · rename_i refused
    cases drawn
    exact World.makeNew_error refused

/-- If no file could be written, all that was made are directories on the way to the folder. -/
theorem writeNew_failed
    (failed : folder.writeNew stem ending content world = (.error failure, next)) :
    ∃ outcome, world.disk.makeDirs folder.dir.text = (outcome, next.disk) := by
  rw [writeNew, allocate] at failed
  split at failed
  · rename_i fault disk dirs
    cases failed
    exact ⟨.error fault, dirs⟩
  · rename_i grown dirs
    cases drawn : makeFresh (fun disk text => disk.create text content) folder.dir.text stem ending
        { world with disk := grown } with
    | mk outcome last =>
        cases outcome with
        | ok made => simp [drawn, settle] at failed
        | error other =>
            simp only [drawn, settle, Prod.mk.injEq] at failed
            obtain ⟨-, rfl⟩ := failed
            exact ⟨.ok (), by rw [makeFresh_error drawn]; exact dirs⟩

/-- A folder that was made stays, whatever becomes of the file. -/
theorem writeNew_onward {grown : Disk} (stem ending content : String)
    (dirs : world.disk.makeDirs folder.dir.text = (.ok (), grown)) :
    Listing.Grows grown.root (folder.writeNew stem ending content world).2.disk.root := by
  rw [writeNew, allocate, dirs]
  cases drawn : makeFresh (fun disk text => disk.create text content) folder.dir.text stem ending
      { world with disk := grown } with
  | mk outcome last =>
      cases outcome with
      | error failure =>
          simp only [drawn, settle, makeFresh_error drawn]
          exact .refl _
      | ok made =>
          simp only [drawn, settle]
          exact Disk.create_grows (makeFresh_ok drawn).2

/-- Whatever comes of a new file, the tree is intact again. -/
theorem allocate_intact (intact : world.disk.Intact) (stem ending : String)
    (fill : Except (String × Fault) String) :
    (folder.allocate stem ending fill world).2.disk.Intact := by
  unfold allocate
  split
  · rename_i dirs
    exact intact.makeDirs dirs
  · rename_i grown dirs
    have laid := intact.makeDirs dirs
    extract_lets written
    cases drawn : makeFresh (fun disk text => disk.create text written) folder.dir.text stem ending
        { world with disk := grown } with
    | mk outcome last =>
        cases outcome with
        | error failure =>
            simp only [settle, makeFresh_error drawn]
            exact laid
        | ok made =>
            have filled : last.disk.Intact := laid.create (makeFresh_ok drawn).2
            cases fill with
            | ok content => exact filled
            | error broken => exact filled.remove made

theorem writeNew_error (failed : folder.writeNew stem ending content world = (.error failure, next)) :
    Disk.AddsDirs world.disk next.disk := by
  obtain ⟨outcome, dirs⟩ := writeNew_failed failed
  exact Disk.makeDirs_addsDirs dirs

/-- The text of a new file goes on from that of the folder by one segment. -/
theorem place_spelled (grounded : folder.dir.Grounded) (stemPlain : IsPlainText stem)
    (endingPlain : IsPlainText ending) (tag : Tag) :
    Path.ofText (place folder.dir.text stem ending tag) = ⟨place folder.dir.text stem ending tag⟩ ∧
      ∃ start segments last, folder.dir.Spelled start segments ∧
        Spelled ⟨place folder.dir.text stem ending tag⟩ start (segments ++ [last]) := by
  obtain ⟨start, segments, spelling, free⟩ := grounded.spelled
  obtain ⟨shown, longer⟩ := spelled_place spelling free stemPlain endingPlain tag
  exact ⟨shown, start, segments, _, spelling, longer⟩

/-- A file without slashes in its name stands directly in the folder, and the path shows its name
as it is. -/
theorem writeNew_gains (grounded : folder.dir.Grounded) (stemPlain : IsPlainText stem)
    (endingPlain : IsPlainText ending)
    (written : folder.writeNew stem ending content world = (.ok path, next)) :
    ∃ top name, folder.Gains world.disk next.disk path content top name := by
  obtain ⟨grown, tag, dirs, rfl, created⟩ := writeNew_made written
  obtain ⟨shown, start, segments, last, spelling, longer⟩ :=
    place_spelled grounded stemPlain endingPlain tag
  obtain ⟨top, reached, extended⟩ := Disk.makeDirs_ok spelling dirs
  have dir := Listing.isDirAt_of_entryAt? (extended.way top List.prefix_rfl).2
  have gains := Disk.create_in_dir spelling longer reached dir created
  have beyond := Listing.beyond_concat top
  have fresh := (extended.rest _ (beyond _)).symm.trans
    (Listing.entryAt?_eq_none.mpr gains.missing)
  refine ⟨top, _, ?_, ?_, gains.placed, Listing.entryAt?_eq_none.mp fresh, ?_, ?_, ?_⟩
  · have growth := Disk.create_grows created
    exact Disk.reach_grows spelling.startsAtRoot growth reached
  · rw [shown]
    exact gains.reached
  · intro location above
    rw [gains.entries, if_neg fun same => beyond _ (same ▸ above)]
    exact extended.way location above
  · intro location aside other
    rw [gains.entries, if_neg other]
    exact extended.rest location aside
  · rw [gains.only, (Disk.makeDirs_addsDirs dirs).only]

end TempFolder

namespace Synthesis

theorem run_of_not_allowed (mode : context.mode ≠ .standard) (world : World) :
    synthesis.run context world = ⟨⟨.ok [], [.noTempFiles context.mode]⟩, world⟩ := by
  have refused : (!context.mode.allowsTempFiles) = true := by
    cases held : context.mode with
    | standard => exact absurd held mode
    | restricted => rfl
  rw [run, if_pos refused]

theorem run_of_selected {listed : List Path} (standard : context.mode = .standard)
    (chosen : synthesis.selected world.disk context.base = .ok listed) :
    synthesis.run context world = synthesis.write listed world := by
  have allowed : ¬(!context.mode.allowsTempFiles) = true := by
    simp [standard, HostMode.allowsTempFiles]
  rw [run, if_neg allowed, chosen]

theorem run_onward {listed : List Path} {grown : Disk} (standard : context.mode = .standard)
    (chosen : synthesis.selected world.disk context.base = .ok listed)
    (dirs : world.disk.makeDirs synthesis.folder.dir.text = (.ok (), grown)) :
    Listing.Grows grown.root (synthesis.run context world).state.disk.root := by
  have onward := TempFolder.writeNew_onward synthesis.affixes.1 synthesis.affixes.2
    (Manifest.ofPaths listed synthesis.options).text dirs
  rw [run_of_selected standard chosen, write]
  split
  · rename_i failed
    rwa [failed] at onward
  · rename_i written
    rwa [written] at onward

theorem run_intact (intact : world.disk.Intact) (synthesis : Synthesis) (context : Context) :
    (synthesis.run context world).state.disk.Intact := by
  by_cases standard : context.mode = .standard
  · cases chosen : synthesis.selected world.disk context.base with
    | error failure =>
        rw [run_state_of_not_selected chosen]
        exact intact
    | ok listed =>
        have written := @TempFolder.allocate_intact world synthesis.folder intact synthesis.affixes.1
          synthesis.affixes.2 (.ok (Manifest.ofPaths listed synthesis.options).text)
        rw [run_of_selected standard chosen, write]
        split
        · rename_i failed
          rw [TempFolder.writeNew] at failed
          rwa [failed] at written
        · rename_i done
          rw [TempFolder.writeNew] at done
          rwa [done] at written
  · rw [run_of_not_allowed standard]
    exact intact

theorem run_error (fails : (synthesis.run context world).report.outcome = .error failure) :
    Disk.AddsDirs world.disk (synthesis.run context world).state.disk := by
  by_cases standard : context.mode = .standard
  · cases chosen : synthesis.selected world.disk context.base with
    | error other =>
        rw [run_state_of_not_selected chosen]
        exact .refl _
    | ok listed =>
        rw [run_of_selected standard chosen, write] at fails ⊢
        split at fails
        · rename_i written
          exact TempFolder.writeNew_error written
        · simp at fails
  · simp [run_of_not_allowed standard] at fails

theorem run_gains (grounded : synthesis.folder.dir.Grounded)
    (stemPlain : IsPlainText synthesis.affixes.1) (endingPlain : IsPlainText synthesis.affixes.2)
    (standard : context.mode = .standard)
    (succeeds : (synthesis.run context world).report.outcome = .ok files) :
    ∃ listed file top name, synthesis.selected world.disk context.base = .ok listed ∧
      files = [file] ∧
      synthesis.folder.Gains world.disk (synthesis.run context world).state.disk file
        (Manifest.ofPaths listed synthesis.options).text top name := by
  cases chosen : synthesis.selected world.disk context.base with
  | error other =>
      rw [run_outcome standard, chosen] at succeeds
      contradiction
  | ok listed =>
      rw [run_of_selected standard chosen, write] at succeeds ⊢
      split at succeeds
      · simp [Report.fail] at succeeds
      · rename_i file last written
        cases succeeds
        obtain ⟨top, name, gains⟩ := TempFolder.writeNew_gains grounded stemPlain endingPlain written
        exact ⟨listed, file, top, name, rfl, rfl, gains⟩

end Synthesis

namespace Chain

theorem reduced_state (convention : Convention) (context : Context) (world : World) :
    ((reduced convention).run context world).state = world := by
  by_cases declared :
    ((Declared.strategy convention).run context world).report.outcome = .ok []
  · exact (runAll_cons_nothing [Discovered.strategy convention] declared).1.trans
      (runAll_last context (Discovered.strategy convention) world).1
  · exact (runAll_cons_decided [Discovered.strategy convention] declared).1

/-- A search leaves an intact tree, whoever decided it. -/
theorem full_intact (intact : world.disk.Intact) (convention : Convention) (synthesis : Synthesis)
    (context : Context) : ((full convention synthesis).run context world).state.disk.Intact := by
  rcases full_cases convention synthesis context world with ⟨-, same⟩ | ⟨-, state, -⟩
  · rwa [same]
  · rw [state]
    exact synthesis.run_intact intact context

/-- What a search leaves behind, by the strategy that decided it. -/
theorem full_effects (plain : IsPlainText convention.fileName)
    (grounded : synthesis.folder.dir.Grounded) (context : Context) (world : World) :
    let named := synthesis.namedAfter convention
    let done := (full convention named).run context world
    (done.source? = some "property" ∨ done.source? = some "discovery" ∨
        context.mode = .restricted → done.state = world) ∧
      (∀ failure, done.report.outcome = .error failure →
        Disk.AddsDirs world.disk done.state.disk) ∧
      (∀ files, files ≠ [] → done.report.outcome = .ok files → done.source? = some "synthesis" →
        ∃ listed file top name, named.selected world.disk context.base = .ok listed ∧
          files = [file] ∧ synthesis.folder.Gains world.disk done.state.disk file
            (Manifest.ofPaths listed synthesis.options).text top name) ∧
      ((reduced convention).run context world).state = world := by
  intro named done
  obtain ⟨stemPlain, endingPlain⟩ := Convention.affixes_plain plain
  refine ⟨?_, ?_, ?_, reduced_state convention context world⟩
  · intro looked
    rcases full_cases convention named context world with ⟨-, same⟩ | ⟨source, state, -⟩
    · exact same
    · rcases looked with found | found | restricted
      · simp [done, source] at found
      · simp [done, source] at found
      · exact state.trans
          (congrArg Reply.state (Synthesis.run_of_not_allowed (by simp [restricted]) world))
  · intro failure fails
    rcases full_cases convention named context world with ⟨-, same⟩ | ⟨-, state, outcome⟩
    · simp only [done, same]
      exact .refl world.disk
    · simp only [done, state]
      exact Synthesis.run_error (outcome.symm.trans fails)
  · intro files some succeeds source
    rcases full_cases convention named context world with ⟨looked, -⟩ | ⟨-, state, outcome⟩
    · rcases looked with found | found
      · simp [done, found] at source
      · simp [done, found] at source
    · have generated := outcome.symm.trans succeeds
      have standard : context.mode = .standard := by
        by_contra other
        rw [Synthesis.run_of_not_allowed other] at generated
        cases generated
        exact some rfl
      simp only [done, state]
      exact Synthesis.run_gains grounded stemPlain endingPlain standard generated

def freshConvention : Convention := { fileName := "deno.json" }

theorem full_effects_in_sample :
    let named := Synthesis.sampleSynthesis.namedAfter freshConvention
    let context : Context := { base := ⟨"/w"⟩ }
    let done := (full freshConvention named).run context Synthesis.sampleWorld
    done.report.outcome = .ok [⟨"/w/src/made/deno-aaaaaa.json"⟩] ∧
      ∃ listed file top name, named.selected Walk.sampleDisk context.base = .ok listed ∧
        [⟨"/w/src/made/deno-aaaaaa.json"⟩] = [file] ∧
        Synthesis.sampleSynthesis.folder.Gains Walk.sampleDisk done.state.disk file
          (Manifest.ofPaths listed Synthesis.sampleSynthesis.options).text top name := by
  intro named context done
  have outcome : done.report.outcome = .ok [⟨"/w/src/made/deno-aaaaaa.json"⟩] := by decide +kernel
  have source : done.source? = some "synthesis" := by decide +kernel
  have plain : IsPlainText freshConvention.fileName := by decide +kernel
  have grounded : Synthesis.sampleSynthesis.folder.dir.Grounded := by decide +kernel
  have effects := full_effects plain grounded context Synthesis.sampleWorld
  exact ⟨outcome, effects.2.2.1 _ (by simp) outcome source⟩

end Chain

end ManifestSearch
