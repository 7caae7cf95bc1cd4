import ManifestSearch.Proofs.Chain.Effects
import ManifestSearch.Proofs.Strategy.Drawn
import ManifestSearch.Proofs.Strategy.Relisting

/-!
Two searches in a row that both generate a manifest. The second one looks anew, at a tree in which
there is the manifest of the first one and perhaps its folder. So the second manifest has a path of
its own, and it lists what the first one lists and beside that at most the first manifest and links
that lead to a file only since the folder was made.
-/

namespace ManifestSearch

variable {world : World} {context : Context} {convention style : Convention} {synthesis : Synthesis}
  {files more : List Path}

/-- A search that ends with a generated manifest. -/
def ChainRun.Generates (done : ChainRun World) (files : List Path) : Prop :=
  done.source? = some "synthesis" ∧ files ≠ [] ∧ done.report.outcome = .ok files

instance (done : ChainRun World) (files : List Path) : Decidable (done.Generates files) :=
  inferInstanceAs (Decidable (_ ∧ _ ∧ _))

namespace Chain

theorem full_wrote (rooted : startsAtRoot synthesis.folder.dir.text)
    (generates : ((full convention synthesis).run context world).Generates files) :
    ∃ listed tag content place, synthesis.selected world.disk context.base = .ok listed ∧
      files = [Path.ofText (synthesis.fileFor tag)] ∧
      Manifest.Holds content listed synthesis.options ∧
      Disk.Wrote world.disk ((full convention synthesis).run context world).state.disk
        (synthesis.fileFor tag) content place := by
  obtain ⟨source, some, succeeds⟩ := generates
  rcases full_cases convention synthesis context world with ⟨looked, -⟩ | ⟨-, state, outcome⟩
  · rcases looked with found | found
    · simp [found] at source
    · simp [found] at source
  · have generated := outcome.symm.trans succeeds
    have standard : context.mode = .standard := by
      by_contra other
      rw [Synthesis.run_of_not_allowed other] at generated
      cases generated
      exact some rfl
    rw [state]
    exact Synthesis.run_wrote rooted standard generated

/-- Searching twice generates two manifests at two paths with the same options. They list the same
files unless the second search comes upon something that was no file before the first one. -/
theorem full_twice (convention style : Convention) (ordered : world.disk.root.Ordered)
    (baseRooted : startsAtRoot context.base.text)
    (folderRooted : startsAtRoot synthesis.folder.dir.text) :
    let named := synthesis.namedAfter style
    let first := (full convention named).run context world
    let second := (full convention named).run context first.state
    first.Generates files → second.Generates more →
      ∃ made remade place top listed relisted,
        files = [Path.ofText made] ∧ more = [Path.ofText remade] ∧
        Path.ofText made ≠ Path.ofText remade ∧
        named.selected world.disk context.base = .ok listed ∧
        named.selected first.state.disk context.base = .ok relisted ∧
        Manifest.StandsAt second.state.disk made listed synthesis.options ∧
        Manifest.StandsAt second.state.disk remade relisted synthesis.options ∧
        first.state.disk.reach true made = .ok (.taken place) ∧
        world.disk.reach true context.base.text = .ok (.taken top) ∧
        (listed.map Path.text).Sublist (relisted.map Path.text) ∧
        (listed.map Path.text = relisted.map Path.text ↔
          named.Unnoticed context.base world.disk first.state.disk top place) := by
  intro named first second generates again
  have namedRooted : startsAtRoot named.folder.dir.text := folderRooted
  have rooted := Synthesis.startsAtRoot_fileFor namedRooted
  obtain ⟨listed, tag, content, place, chosen, shown, holds, wrote⟩ :=
    @full_wrote world context convention named files namedRooted generates
  obtain ⟨relisted, other, recontent, elsewhere, rechosen, reshown, reholds, rewrote⟩ :=
    @full_wrote first.state context convention named more namedRooted again
  obtain ⟨top, reached, smaller, same⟩ :=
    Synthesis.relisted_iff wrote baseRooted ordered chosen rechosen
  have stands : Manifest.StandsAt second.state.disk (named.fileFor tag) listed synthesis.options :=
    ⟨content, wrote.read (rooted tag) rewrote.grows, holds⟩
  have restands : Manifest.StandsAt second.state.disk (named.fileFor other) relisted
      synthesis.options := ⟨recontent, rewrote.read (rooted other) (.refl _), reholds⟩
  refine ⟨named.fileFor tag, named.fileFor other, place, top, listed, relisted, shown, reshown, ?_,
    chosen, rechosen, stands, restands, wrote.reached, reached, smaller.map _,
    Path.map_text_inj.trans same⟩
  intro samePath
  -- One path means one name, and the second name was not free.
  have sameTag : tag.text = other.text := TempFolder.ofText_place_inj samePath
  have sameName : named.fileFor tag = named.fileFor other := by
    simp only [Synthesis.fileFor, TempFolder.place, sameTag]
  obtain ⟨location, taken⟩ := wrote.taken (rooted tag)
  exact rewrote.free location (sameName ▸ taken)

/-- A link that goes through a directory that is missing. -/
def growingDisk : Disk :=
  ⟨.dir "w" (.leaf "l.ts" (.link "gen/../x.ts") (.leaf "x.ts" (.file "") .nil)) .nil, [], false⟩

def growingTags : Nat → Tag
  | 0 => default
  | _ + 1 => ⟨List.replicate 6 ⟨1, by decide⟩, rfl⟩

def growingWorld : World := ⟨growingDisk, growingTags⟩

/-- Manifests go to a folder below the base, which is made for the first one. -/
def growingSynthesis (extension : String) : Synthesis where
  folder := { dir := ⟨"/w/gen"⟩ }
  selector := .byExtension [extension] []

/-- The second manifest lists the first one. -/
theorem full_twice_of_manifests :
    let named := (growingSynthesis "json").namedAfter .standard
    let context : Context := { base := ⟨"/w"⟩ }
    let first := (full .standard named).run context growingWorld
    let second := (full .standard named).run context first.state
    let firstFile : Path := ⟨"/w/gen/tsconfig-aaaaaa.json"⟩
    first.Generates [firstFile] ∧ second.Generates [⟨"/w/gen/tsconfig-bbbbbb.json"⟩] ∧
      Manifest.StandsAt second.state.disk "/w/gen/tsconfig-aaaaaa.json" [] [] ∧
      Manifest.StandsAt second.state.disk "/w/gen/tsconfig-bbbbbb.json" [firstFile] [] ∧
      ∃ made remade place top listed relisted,
        [firstFile] = [Path.ofText made] ∧
        [⟨"/w/gen/tsconfig-bbbbbb.json"⟩] = [Path.ofText remade] ∧
        Path.ofText made ≠ Path.ofText remade ∧
        named.selected growingDisk context.base = .ok listed ∧
        named.selected first.state.disk context.base = .ok relisted ∧
        Manifest.StandsAt second.state.disk made listed [] ∧
        Manifest.StandsAt second.state.disk remade relisted [] ∧
        first.state.disk.reach true made = .ok (.taken place) ∧
        growingDisk.reach true "/w" = .ok (.taken top) ∧
        (listed.map Path.text).Sublist (relisted.map Path.text) ∧
        (listed.map Path.text = relisted.map Path.text ↔
          named.Unnoticed context.base growingDisk first.state.disk top place) := by
  intro named context first second firstFile
  have runs : first.Generates [firstFile] ∧ second.Generates [⟨"/w/gen/tsconfig-bbbbbb.json"⟩] ∧
      second.state.disk.read "/w/gen/tsconfig-aaaaaa.json" = .ok (Manifest.ofPaths [] []).text ∧
      second.state.disk.read "/w/gen/tsconfig-bbbbbb.json" =
        .ok (Manifest.ofPaths [firstFile] []).text := by decide +kernel
  obtain ⟨generates, again, reads, rereads⟩ := runs
  have ordered : growingWorld.disk.root.Ordered := by decide +kernel
  have both := full_twice .standard .standard ordered (by decide +kernel) (by decide +kernel)
    generates again
  exact ⟨generates, again, ⟨_, reads, Manifest.holds_ofPaths [] []⟩,
    ⟨_, rereads, Manifest.holds_ofPaths [firstFile] []⟩, both⟩

/-- The second manifest lists a link that led nowhere before the folder was made, and the first one
does not. -/
theorem full_relists :
    let named := (growingSynthesis "ts").namedAfter .standard
    let context : Context := { base := ⟨"/w"⟩ }
    let first := (full .standard named).run context growingWorld
    let second := (full .standard named).run context first.state
    let held (text : String) : Option Manifest := (second.state.disk.read text).toOption.bind Manifest.read?
    first.Generates [⟨"/w/gen/tsconfig-aaaaaa.json"⟩] ∧
      second.Generates [⟨"/w/gen/tsconfig-bbbbbb.json"⟩] ∧
      ∃ listed relisted : List String, held "/w/gen/tsconfig-aaaaaa.json" = some ⟨listed, []⟩ ∧
        held "/w/gen/tsconfig-bbbbbb.json" = some ⟨relisted, []⟩ ∧
        listed = ["/w/x.ts"] ∧ relisted = ["/w/l.ts", "/w/x.ts"] ∧ listed ≠ relisted := by
  intro named context first second held
  have runs : first.Generates [⟨"/w/gen/tsconfig-aaaaaa.json"⟩] ∧
      second.Generates [⟨"/w/gen/tsconfig-bbbbbb.json"⟩] ∧
      second.state.disk.read "/w/gen/tsconfig-aaaaaa.json" =
        .ok (Manifest.ofPaths [⟨"/w/x.ts"⟩] []).text ∧
      second.state.disk.read "/w/gen/tsconfig-bbbbbb.json" =
        .ok (Manifest.ofPaths [⟨"/w/l.ts"⟩, ⟨"/w/x.ts"⟩] []).text := by decide +kernel
  obtain ⟨generates, again, reads, rereads⟩ := runs
  have back (files : List Path) :
      Manifest.read? (Manifest.ofPaths files []).text = some ⟨files.map Path.text, []⟩ :=
    (Manifest.holds_ofPaths files []).reads ⟨.nil, trivial⟩ (by decide)
  refine ⟨generates, again, ["/w/x.ts"], ["/w/l.ts", "/w/x.ts"], ?_, ?_, rfl, rfl, by decide⟩
  · simp only [held, reads, Except.toOption, Option.bind_some, back]
    rfl
  · simp only [held, rereads, Except.toOption, Option.bind_some, back]
    rfl

end Chain

end ManifestSearch
