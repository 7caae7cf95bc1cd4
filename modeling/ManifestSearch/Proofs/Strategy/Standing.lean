import ManifestSearch.Proofs.Strategy.Discovery
import ManifestSearch.Proofs.Strategy.Synthesis
import ManifestSearch.Proofs.Walk.Respelling

/-!
Whether what a search answers stands for files below the base. A path is spelled from names, and a
backslash in a name separates in the spelling, so this depends on the entries: what is found by name
stands exactly if all entries of the name are legible, and what a manifest lists stands exactly if
all selected entries are.
-/

namespace ManifestSearch

variable {disk : Disk} {world : World} {context : Context} {target : Discovered.Target}
  {synthesis : Synthesis} {inside : Listing} {found files : List Path} {manifest : Path}

theorem Discovered.search_ok (site : Walk.Site disk context.base inside)
    (succeeds : (search target disk context).outcome = .ok found) :
    (context.base.hasSegment target.excluded ∧ found = []) ∨
      (¬context.base.hasSegment target.excluded ∧
        found = (Walk.filesBelow disk [target.excluded] context.base.text inside).filter
          target.isNameOf) := by
  by_cases excluded : context.base.hasSegment target.excluded
  · rw [search_of_excluded excluded] at succeeds
    cases succeeds
    exact .inl ⟨excluded, rfl⟩
  · rw [search_of_not_excluded excluded] at succeeds
    exact .inr ⟨excluded, Walk.files_map_ok site.grounded.2 site.found succeeds⟩

theorem Discovered.search_stands_iff (site : Walk.Site disk context.base inside)
    (succeeds : (search target disk context).outcome = .ok found) :
    (∀ file ∈ found, Walk.Stands disk context.base file) ↔
      context.base.hasSegment target.excluded ∨
        Walk.AllLegible disk context.base [target.excluded] inside fun names =>
          (Walk.respelled context.base names).getLast? = some target.fileName := by
  rcases search_ok site succeeds with ⟨excluded, rfl⟩ | ⟨free, rfl⟩
  · exact iff_of_true (by simp) (.inl excluded)
  · rw [site.all_stand_iff, or_iff_right free]
    refine forall₂_congr fun names held => forall₂_congr fun member counted => ?_
    have named := site.fileName?_listed (site.at?_of_mem_leaves member)
    simp only [Target.isNameOf, named, beq_iff_eq]

theorem Synthesis.run_stands_iff (site : Walk.Site world.disk context.base inside)
    (rooted : startsAtRoot synthesis.folder.dir.text)
    (succeeds : (synthesis.run context world).report.outcome = .ok files)
    (generated : manifest ∈ files) :
    ∃ made listed, manifest = Path.ofText made ∧
      Manifest.StandsAt (synthesis.run context world).state.disk made listed synthesis.options ∧
      ((∀ file ∈ listed, Walk.Stands world.disk context.base file) ↔
        Walk.AllLegible world.disk context.base synthesis.selector.skippedDirs inside fun names =>
          synthesis.selector.selects (Path.ofText (RawText.descend context.base.text names))) := by
  have standard : context.mode = .standard := by
    cases mode : context.mode with
    | standard => rfl
    | restricted =>
        have none : (synthesis.run context world).report.outcome = .ok [] := by
          simp [run, mode, HostMode.allowsTempFiles]
        rw [none] at succeeds
        cases succeeds
        contradiction
  obtain ⟨listed, tag, made, chosen, -, rfl, stands, -⟩ := run_ok rooted standard succeeds
  rw [selected_ok site chosen] at stands
  exact ⟨made, _, List.mem_singleton.mp generated, stands, site.all_stand_iff _ _⟩

/-- Every path that a search by name answers, and every path that a generated manifest lists, lies
below the base and names a file, exactly if the entries on which it goes back are legible. -/
theorem results_stand_iff (site : Walk.Site world.disk context.base inside)
    (grounded : synthesis.folder.dir.Grounded) :
    (∀ found, (Discovered.search target world.disk context).outcome = .ok found →
      ((∀ file ∈ found, Walk.Stands world.disk context.base file) ↔
        context.base.hasSegment target.excluded ∨
          Walk.AllLegible world.disk context.base [target.excluded] inside fun names =>
            (Walk.respelled context.base names).getLast? = some target.fileName)) ∧
    (∀ files, (synthesis.run context world).report.outcome = .ok files → ∀ manifest ∈ files,
      ∃ made listed, manifest = Path.ofText made ∧
        Manifest.StandsAt (synthesis.run context world).state.disk made listed synthesis.options ∧
        ((∀ file ∈ listed, Walk.Stands world.disk context.base file) ↔
          Walk.AllLegible world.disk context.base synthesis.selector.skippedDirs inside fun names =>
            synthesis.selector.selects (Path.ofText (RawText.descend context.base.text names)))) := by
  constructor
  · intro found succeeds
    exact Discovered.search_stands_iff site succeeds
  · intro files succeeds manifest generated
    exact Synthesis.run_stands_iff site grounded.2 succeeds generated

def oddListing : Listing := .leaf "a\\tsconfig.json" (.file "") (.leaf "b.ts" (.file "") .nil)

def oddWorld : World := ⟨⟨.dir "w" oddListing .nil, [], false⟩, fun _ => default⟩

def oddContext : Context := { base := ⟨"/w"⟩ }

def oddTarget : Discovered.Target := ⟨"tsconfig.json", "node_modules"⟩

def oddSynthesis : Synthesis where
  folder := { dir := ⟨"/made"⟩ }
  selector := .byExtension ["ts"] []

theorem results_stand_iff_in_odd :
    ((∀ file ∈ [⟨"/w/a/tsconfig.json"⟩], Walk.Stands oddWorld.disk oddContext.base file) ↔
      oddContext.base.hasSegment oddTarget.excluded ∨
        Walk.AllLegible oddWorld.disk oddContext.base [oddTarget.excluded] oddListing fun names =>
          (Walk.respelled oddContext.base names).getLast? = some oddTarget.fileName) ∧
    ∃ made listed, ⟨"/made/tsconfig-aaaaaa.json"⟩ = Path.ofText made ∧
      Manifest.StandsAt (oddSynthesis.run oddContext oddWorld).state.disk made listed
        oddSynthesis.options ∧
      ((∀ file ∈ listed, Walk.Stands oddWorld.disk oddContext.base file) ↔
        Walk.AllLegible oddWorld.disk oddContext.base oddSynthesis.selector.skippedDirs oddListing
          fun names => oddSynthesis.selector.selects
            (Path.ofText (RawText.descend oddContext.base.text names))) := by
  have site : Walk.Site oddWorld.disk oddContext.base oddListing := by decide +kernel
  have grounded : oddSynthesis.folder.dir.Grounded := by decide +kernel
  have searched : (Discovered.search oddTarget oddWorld.disk oddContext).outcome =
      .ok [⟨"/w/a/tsconfig.json"⟩] := by decide +kernel
  have generated : (oddSynthesis.run oddContext oddWorld).report.outcome =
      .ok [⟨"/made/tsconfig-aaaaaa.json"⟩] := by decide +kernel
  have both := @results_stand_iff oddWorld oddContext oddTarget oddSynthesis oddListing site grounded
  exact ⟨both.1 _ searched, both.2 _ generated _ (List.mem_singleton.mpr rfl)⟩

example : ¬Walk.Stands oddWorld.disk oddContext.base ⟨"/w/a/tsconfig.json"⟩ := by decide +kernel

end ManifestSearch
