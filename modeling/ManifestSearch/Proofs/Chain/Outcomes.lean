import ManifestSearch.Proofs.Chain.Order
import ManifestSearch.Proofs.Strategy.Declaration
import ManifestSearch.Proofs.Strategy.Discovery
import ManifestSearch.Proofs.Strategy.Synthesis

/-!
How the standard chains end. Declared patterns never make a search fail, so a chain fails only where
the base is missing, or where a manifest has to be generated and cannot be written. A missing base
is noticed before anything is written.
-/

namespace ManifestSearch

variable {disk : Disk} {context : Context} {world : World} {convention : Convention}
  {synthesis : Synthesis} {target : Discovered.Target} {failure : Failure}

namespace Discovered

theorem search_ok_of_found (target : Target)
    (clear : ¬context.base.hasSegment target.excluded →
      Walk.Clear ⟨context.base, [target.excluded]⟩ disk)
    (found : disk.found context.base.text) :
    ∃ files, (search target disk context).outcome = .ok files := by
  by_cases excluded : context.base.hasSegment target.excluded
  · exact ⟨[], search_of_excluded excluded⟩
  · obtain ⟨files, walked⟩ := Walk.files_of_found (clear excluded) found
    rw [search_of_not_excluded excluded, walked]
    exact ⟨_, rfl⟩

theorem search_of_missing (target : Target) (free : ¬context.base.hasSegment target.excluded)
    (missing : ¬disk.found context.base.text) :
    ∃ fault, (search target disk context).outcome = .error (.tree context.base.text fault) := by
  obtain ⟨fault, failed⟩ := Walk.files_of_missing ⟨context.base, [target.excluded]⟩ missing
  refine ⟨fault, ?_⟩
  rw [search_of_not_excluded free, failed]
  rfl

end Discovered

namespace Synthesis

/-- The first stages of a run: the files are listed, and then a manifest of them is written. -/
theorem run_outcome (standard : context.mode = .standard) (world : World) :
    (synthesis.run context world).report.outcome =
      (synthesis.selected world.disk context.base).bind fun listed =>
        (synthesis.folder.writeNew synthesis.affixes.1 synthesis.affixes.2
          (Manifest.ofPaths listed synthesis.options).text world).1.map fun path => [path] := by
  have allowed : ¬(!context.mode.allowsTempFiles) = true := by
    simp [standard, HostMode.allowsTempFiles]
  simp only [run, if_neg allowed]
  cases synthesis.selected world.disk context.base with
  | error failure => rfl
  | ok listed =>
      simp only [Except.bind, write]
      split
      · rename_i failure next failed
        rw [failed]
        rfl
      · rename_i path next written
        rw [written]
        rfl

theorem run_ne_nothing (synthesis : Synthesis) (standard : context.mode = .standard)
    (world : World) :
    (synthesis.run context world).report.outcome ≠ .ok [] := by
  rw [run_outcome standard]
  cases synthesis.selected world.disk context.base with
  | error failure => simp [Except.bind]
  | ok listed =>
      simp only [Except.bind]
      cases (synthesis.folder.writeNew synthesis.affixes.1 synthesis.affixes.2
          (Manifest.ofPaths listed synthesis.options).text world).1 with
      | error failure => simp [Except.map]
      | ok path => simp [Except.map]

theorem selected_of_missing (synthesis : Synthesis) (missing : ¬disk.found context.base.text) :
    ∃ fault, synthesis.selected disk context.base = .error (.tree context.base.text fault) := by
  obtain ⟨fault, failed⟩ :=
    Walk.files_of_missing ⟨context.base, synthesis.selector.skippedDirs⟩ missing
  refine ⟨fault, ?_⟩
  rw [selected, failed]
  rfl

theorem selected_of_found (clear : Walk.Clear ⟨context.base, synthesis.selector.skippedDirs⟩ disk)
    (found : disk.found context.base.text) :
    ∃ listed, synthesis.selected disk context.base = .ok listed := by
  obtain ⟨files, walked⟩ := Walk.files_of_found clear found
  exact ⟨files.filter synthesis.selector.selects, by rw [selected, walked]; rfl⟩

/-- The selected files can be listed, but no manifest of them can be written. -/
def Unwritable (synthesis : Synthesis) (context : Context) (world : World) : Prop :=
  ∃ listed failure, synthesis.selected world.disk context.base = .ok listed ∧
    (synthesis.folder.writeNew synthesis.affixes.1 synthesis.affixes.2
      (Manifest.ofPaths listed synthesis.options).text world).1 = .error failure

theorem run_fails_iff {listed : List Path} (standard : context.mode = .standard)
    (chosen : synthesis.selected world.disk context.base = .ok listed) :
    (∃ failure, (synthesis.run context world).report.outcome = .error failure) ↔
      synthesis.Unwritable context world := by
  rw [run_outcome standard, chosen]
  simp only [Except.bind]
  constructor
  · intro fails
    obtain ⟨failure, failed⟩ := fails
    refine ⟨listed, failure, chosen, ?_⟩
    cases written : (synthesis.folder.writeNew synthesis.affixes.1 synthesis.affixes.2
        (Manifest.ofPaths listed synthesis.options).text world).1 with
    | error other =>
        rw [written] at failed
        cases failed
        rfl
    | ok path =>
        rw [written] at failed
        contradiction
  · intro unwritable
    obtain ⟨other, failure, same, failed⟩ := unwritable
    cases chosen.symm.trans same
    exact ⟨failure, by rw [failed]; rfl⟩

theorem run_state_of_not_selected
    (failed : synthesis.selected world.disk context.base = .error failure) :
    (synthesis.run context world).state = world := by
  unfold run
  split
  · rfl
  · rw [failed]

end Synthesis

namespace Chain

/-- The walks that a search for manifests makes enter no directory too deep to be opened: those of
the declared patterns, and that of the base if there are none of them. -/
structure Clear (convention : Convention) (disk : Disk) (context : Context) : Prop where
  declared : ∀ pattern ∈ (Declared.keysOf convention).patterns context.properties,
    Pattern.Clear disk context.base pattern
  named : (Declared.search (Declared.keysOf convention) disk context).outcome = .ok [] →
    ¬context.base.hasSegment convention.excludedDir →
    Walk.Clear ⟨context.base, [convention.excludedDir]⟩ disk

theorem reduced_outcome (convention : Convention) (context : Context) (world : World) :
    ((reduced convention).run context world).report.outcome =
      firstOf (Declared.search (Declared.keysOf convention) world.disk context).outcome
        (firstOf (Discovered.search (Discovered.targetOf convention) world.disk context).outcome
          (.ok [])) := by
  rw [run, reduced, outcome_runAll_cons, outcome_runAll_cons]
  rfl

theorem full_outcome (convention : Convention) (synthesis : Synthesis) (context : Context)
    (world : World) :
    ((full convention synthesis).run context world).report.outcome =
      firstOf (Declared.search (Declared.keysOf convention) world.disk context).outcome
        (firstOf (Discovered.search (Discovered.targetOf convention) world.disk context).outcome
          (firstOf (synthesis.run context world).report.outcome (.ok []))) := by
  rw [run, full, outcome_runAll_cons, outcome_runAll_cons, outcome_runAll_cons]
  rfl

/-- A search with the full chain comes down to generating a manifest, or it only looked. -/
theorem full_cases (convention : Convention) (synthesis : Synthesis) (context : Context)
    (world : World) :
    let done := (full convention synthesis).run context world
    (done.source? = some "property" ∨ done.source? = some "discovery") ∧ done.state = world ∨
      done.source? = some "synthesis" ∧
        done.state = (synthesis.run context world).state ∧
        done.report.outcome = (synthesis.run context world).report.outcome := by
  intro done
  have outcome := full_outcome convention synthesis context world
  by_cases declared :
    ((Declared.strategy convention).run context world).report.outcome = .ok []
  · have source := source?_nothing (Discovered.strategy convention) [synthesis.strategy] declared
    have state := (runAll_cons_nothing [Discovered.strategy convention, synthesis.strategy] declared).1
    by_cases named :
      ((Discovered.strategy convention).run context world).report.outcome = .ok []
    · obtain ⟨lastState, lastSource⟩ := runAll_last context synthesis.strategy world
      refine .inr ⟨?_, ?_, ?_⟩
      · exact source.trans ((source?_nothing synthesis.strategy [] named).trans lastSource)
      · exact state.trans ((runAll_cons_nothing [synthesis.strategy] named).1.trans lastState)
      · exact outcome.trans (by
          rw [show (Declared.search (Declared.keysOf convention) world.disk context).outcome = .ok []
              from declared,
            show (Discovered.search (Discovered.targetOf convention) world.disk context).outcome =
              .ok [] from named, firstOf_nothing, firstOf_nothing, firstOf_last])
    · refine .inl ⟨.inr (source.trans (source?_decided _ named)), ?_⟩
      exact state.trans (runAll_cons_decided [synthesis.strategy] named).1
  · exact .inl ⟨.inl (source?_decided _ declared), (runAll_cons_decided _ declared).1⟩

theorem full_state_of_source
    (source : ((full convention synthesis).run context world).source? = some "synthesis") :
    ((full convention synthesis).run context world).state = (synthesis.run context world).state := by
  rcases full_cases convention synthesis context world with ⟨looked, -⟩ | ⟨-, state, -⟩
  · simp [source] at looked
  · exact state

/-- The last strategy is asked exactly if those before it find nothing. -/
theorem full_source_iff :
    ((full convention synthesis).run context world).source? = some "synthesis" ↔
      (Declared.search (Declared.keysOf convention) world.disk context).outcome = .ok [] ∧
        (Discovered.search (Discovered.targetOf convention) world.disk context).outcome = .ok [] := by
  by_cases declared :
    ((Declared.strategy convention).run context world).report.outcome = .ok []
  · have source := source?_nothing (Discovered.strategy convention) [synthesis.strategy] declared
    by_cases named :
      ((Discovered.strategy convention).run context world).report.outcome = .ok []
    · have last := (source?_nothing synthesis.strategy [] named).trans (runAll_last context _ _).2
      exact iff_of_true (source.trans last) ⟨declared, named⟩
    · refine iff_of_false (fun last => ?_) fun both => named both.2
      have decided : some "discovery" = some "synthesis" :=
        (source.trans (source?_decided _ named)).symm.trans last
      simp at decided
  · refine iff_of_false (fun last => ?_) fun both => declared both.1
    have decided : some "property" = some "synthesis" := (source?_decided _ declared).symm.trans last
    simp at decided

theorem reduced_fails_iff (clear : Clear convention world.disk context) :
    (∃ failure, ((reduced convention).run context world).report.outcome = .error failure) ↔
      (Declared.search (Declared.keysOf convention) world.disk context).outcome = .ok [] ∧
        ¬context.base.hasSegment convention.excludedDir ∧
        ¬world.disk.found context.base.text := by
  obtain ⟨files, declared⟩ := Declared.search_ok clear.declared
  rw [reduced_outcome, declared]
  cases files with
  | cons file files => simp [firstOf]
  | nil =>
      simp only [firstOf_nothing, true_and]
      by_cases excluded : context.base.hasSegment convention.excludedDir
      · rw [Discovered.search_of_excluded excluded]
        simp [excluded]
      · by_cases found : world.disk.found context.base.text
        · obtain ⟨named, searched⟩ :=
            Discovered.search_ok_of_found (Discovered.targetOf convention)
              (clear.named declared) found
          rw [searched]
          cases named with
          | nil => simp [found]
          | cons file files => simp [firstOf, found]
        · obtain ⟨fault, failed⟩ :=
            Discovered.search_of_missing (Discovered.targetOf convention) excluded found
          rw [failed]
          simp [excluded, found]

theorem reduced_failure (clear : Clear convention world.disk context)
    (fails : ((reduced convention).run context world).report.outcome = .error failure) :
    ∃ fault, failure = .tree context.base.text fault := by
  obtain ⟨declared, excluded, missing⟩ := (reduced_fails_iff clear).mp ⟨failure, fails⟩
  obtain ⟨fault, failed⟩ :=
    Discovered.search_of_missing (Discovered.targetOf convention) excluded missing
  rw [reduced_outcome, declared, failed] at fails
  cases fails
  exact ⟨fault, rfl⟩

theorem full_ne_nothing (standard : context.mode = .standard) (world : World) :
    ((full convention synthesis).run context world).report.outcome ≠ .ok [] := by
  have last : firstOf (synthesis.run context world).report.outcome (.ok []) ≠ .ok [] := by
    rw [firstOf_of_ne (Synthesis.run_ne_nothing synthesis standard world)]
    exact Synthesis.run_ne_nothing synthesis standard world
  have carries (first next : Except Failure (List Path)) (decided : next ≠ .ok []) :
      firstOf first next ≠ .ok [] := by
    by_cases nothing : first = .ok []
    · rwa [nothing, firstOf_nothing]
    · rwa [firstOf_of_ne nothing]
  rw [full_outcome]
  exact carries _ _ (carries _ _ last)

theorem full_fails_iff (clear : Clear convention world.disk context)
    (standard : context.mode = .standard)
    (selected : (Declared.search (Declared.keysOf convention) world.disk context).outcome = .ok [] →
      (Discovered.search (Discovered.targetOf convention) world.disk context).outcome = .ok [] →
      Walk.Clear ⟨context.base, synthesis.selector.skippedDirs⟩ world.disk) :
    (∃ failure, ((full convention synthesis).run context world).report.outcome = .error failure) ↔
      (Declared.search (Declared.keysOf convention) world.disk context).outcome = .ok [] ∧
        (¬world.disk.found context.base.text ∨
          (Discovered.search (Discovered.targetOf convention) world.disk context).outcome = .ok [] ∧
            synthesis.Unwritable context world) := by
  obtain ⟨files, declared⟩ := Declared.search_ok clear.declared
  have last := firstOf_of_ne (Synthesis.run_ne_nothing synthesis standard world)
  rw [full_outcome, last, declared]
  cases files with
  | cons file files => simp [firstOf]
  | nil =>
      simp only [firstOf_nothing, true_and]
      by_cases found : world.disk.found context.base.text
      · obtain ⟨named, searched⟩ :=
          Discovered.search_ok_of_found (Discovered.targetOf convention)
            (clear.named declared) found
        rw [searched]
        cases named with
        | cons file files => simp [firstOf, found]
        | nil =>
            obtain ⟨listed, chosen⟩ :=
              Synthesis.selected_of_found (selected declared searched) found
            simp only [firstOf_nothing, Synthesis.run_fails_iff standard chosen]
            simp [found]
      · -- The base is missed by the search by name, or else when the files are listed.
        obtain ⟨fault, notListed⟩ := Synthesis.selected_of_missing synthesis found
        refine iff_of_true ?_ (.inl found)
        by_cases excluded : context.base.hasSegment convention.excludedDir
        · rw [Discovered.search_of_excluded excluded, firstOf_nothing,
            Synthesis.run_outcome standard, notListed]
          exact ⟨_, rfl⟩
        · obtain ⟨fault, failed⟩ :=
            Discovered.search_of_missing (Discovered.targetOf convention) excluded found
          exact ⟨_, by rw [failed]; rfl⟩

theorem full_state_of_missing (missing : ¬world.disk.found context.base.text) :
    ((full convention synthesis).run context world).state = world := by
  obtain ⟨fault, notListed⟩ := Synthesis.selected_of_missing synthesis missing
  rcases full_cases convention synthesis context world with ⟨-, same⟩ | ⟨-, state, -⟩
  · exact same
  · rw [state, Synthesis.run_state_of_not_selected notListed]

/-- How the standard chains end, where no walk comes upon a directory too deep to be opened. -/
theorem standard_outcomes (clear : Clear convention world.disk context) :
    let declared := (Declared.search (Declared.keysOf convention) world.disk context).outcome
    let named := (Discovered.search (Discovered.targetOf convention) world.disk context).outcome
    let short := (reduced convention).run context world
    let whole := (full convention synthesis).run context world
    (∃ files, declared = .ok files) ∧
      ((∃ failure, short.report.outcome = .error failure) ↔
        declared = .ok [] ∧ ¬context.base.hasSegment convention.excludedDir ∧
          ¬world.disk.found context.base.text) ∧
      (∀ failure, short.report.outcome = .error failure →
        ∃ fault, failure = .tree context.base.text fault) ∧
      (context.mode = .standard →
        whole.report.outcome ≠ .ok [] ∧
        ((declared = .ok [] → named = .ok [] →
            Walk.Clear ⟨context.base, synthesis.selector.skippedDirs⟩ world.disk) →
          ((∃ failure, whole.report.outcome = .error failure) ↔
            declared = .ok [] ∧ (¬world.disk.found context.base.text ∨
              named = .ok [] ∧ synthesis.Unwritable context world)))) ∧
      (¬world.disk.found context.base.text → whole.state = world) := by
  intro declared named short whole
  refine ⟨Declared.search_ok clear.declared, reduced_fails_iff clear,
    fun failure fails => reduced_failure clear fails, fun standard => ⟨?_, ?_⟩,
    full_state_of_missing⟩
  · exact full_ne_nothing standard world
  · exact full_fails_iff clear standard

def blockedConvention : Convention := { fileName := "deno.json" }

def blockedContext : Context where
  base := ⟨"/w"⟩
  properties := .ofRaw [("sonar.typescript.tsconfigPaths", "src/**/*.md")]

/-- Its folder would have to lie below a file. -/
def blockedSynthesis : Synthesis where
  folder := { dir := ⟨"/w/src/app.ts/made"⟩ }
  selector := .standard

theorem standard_outcomes_when_blocked :
    Clear blockedConvention Walk.sampleDisk blockedContext ∧
      Walk.Clear ⟨⟨"/w"⟩, ["node_modules"]⟩ Walk.sampleDisk ∧
      ∃ failure, ((full blockedConvention blockedSynthesis).run blockedContext
        Synthesis.sampleWorld).report.outcome = .error failure := by
  have clear : Clear blockedConvention Walk.sampleDisk blockedContext :=
    ⟨by decide +kernel, fun _ _ => by decide +kernel⟩
  have selected : Walk.Clear ⟨⟨"/w"⟩, ["node_modules"]⟩ Walk.sampleDisk := by decide +kernel
  have table := @standard_outcomes blockedContext Synthesis.sampleWorld blockedConvention
    blockedSynthesis clear
  have unwritable : blockedSynthesis.Unwritable blockedContext Synthesis.sampleWorld :=
    ⟨[⟨"/w/src/app.ts"⟩], .tree "/w/src/app.ts/made" .notDirectory, by decide +kernel,
      by decide +kernel⟩
  refine ⟨clear, selected, ((table.2.2.2.1 rfl).2 fun _ _ => selected).mpr ⟨?_, .inr ⟨?_, unwritable⟩⟩⟩
  · decide +kernel
  · decide +kernel

end Chain

end ManifestSearch
