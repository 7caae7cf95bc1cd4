import ManifestSearch.Proofs.Walk.Reached
import ManifestSearch.Strategy.Discovered

/-!
What a search by name finds. The base is tested once, by its segments, and the walk passes by
directories below it, by their names; together a file is found exactly if no directory on the whole
way from the root to it has the excluded name.
-/

namespace ManifestSearch.Discovered

variable {disk : Disk} {context : Context} {inside : Listing} {target : Target} {file : Path}
  {names : Location} {held : Leaf}

/-- A file that a search by name has to find. -/
structure Wanted (target : Target) (disk : Disk) (base : Path) (inside : Listing) (file : Path) :
    Prop where
  reached : ∃ names held, inside.at? names = some (.leaf held) ∧
    file.text = RawText.descend base.text names ∧
    ((∃ content, held = .file content) ∨ (∃ link, held = .link link) ∧ disk.isFile file.text)
  named : file.segments.getLast? = some target.fileName
  outside : target.excluded ∉ file.segments.dropLast

theorem counts_iff {text : String} : Walk.counts disk text held ↔
    (∃ content, held = .file content) ∨ (∃ link, held = .link link) ∧ disk.isFile text := by
  cases held with
  | file content => simp [Walk.counts]
  | link link => simp [Walk.counts]

theorem wanted_iff (site : Walk.Site disk context.base inside) :
    Wanted target disk context.base inside file ↔
      ∃ names held, inside.at? names = some (.leaf held) ∧
        file = ⟨RawText.descend context.base.text names⟩ ∧ Walk.counts disk file.text held ∧
        names.getLast? = some target.fileName ∧
        target.excluded ∉ context.base.segments ++ names.dropLast := by
  have described (names : Location) (held : Leaf) (stands : inside.at? names = some (.leaf held)) :
      Path.segments ⟨RawText.descend context.base.text names⟩ = context.base.segments ++ names ∧
        names ≠ [] :=
    ⟨site.segments_descend stands, Listing.ne_nil_of_at?_leaf stands⟩
  constructor
  · intro holds
    obtain ⟨⟨names, held, stands, text, kind⟩, named, outside⟩ := holds
    obtain rfl : file = ⟨RawText.descend context.base.text names⟩ := by
      cases file
      exact congrArg Path.mk text
    obtain ⟨whole, occupied⟩ := described names held stands
    rw [whole, List.getLast?_append_of_ne_nil _ occupied] at named
    rw [whole, List.dropLast_append_of_ne_nil occupied] at outside
    exact ⟨names, held, stands, rfl, counts_iff.mpr kind, named, outside⟩
  · intro holds
    obtain ⟨names, held, stands, rfl, counted, named, outside⟩ := holds
    obtain ⟨whole, occupied⟩ := described names held stands
    refine ⟨⟨names, held, stands, rfl, counts_iff.mp counted⟩, ?_, ?_⟩
    · rwa [whole, List.getLast?_append_of_ne_nil _ occupied]
    · rwa [whole, List.dropLast_append_of_ne_nil occupied]

theorem mem_filter_filesBelow (site : Walk.Site disk context.base inside)
    (tame : inside.EveryName IsTame) (free : target.excluded ∉ context.base.segments) :
    file ∈ (Walk.filesBelow disk [target.excluded] context.base.text inside).filter
        target.isNameOf ↔
      Wanted target disk context.base inside file := by
  -- The walk passes by names below the base; those of the base itself are free by assumption.
  rw [wanted_iff site, List.mem_filter, Walk.mem_filesBelow]
  constructor
  · intro holds
    obtain ⟨⟨names, held, member, counted, rfl⟩, named⟩ := holds
    obtain ⟨occupied, stands, passed⟩ := (Listing.mem_leaves site.ordered).mp member
    rw [site.ofText_descend tame stands] at named ⊢
    rw [Target.isNameOf, site.fileName?_descend occupied stands, beq_iff_eq] at named
    refine ⟨names, held, stands, rfl, counted, named, ?_⟩
    rw [List.mem_append, not_or]
    exact ⟨free, fun member => by simpa using passed target.excluded member⟩
  · intro holds
    obtain ⟨names, held, stands, rfl, counted, named, outside⟩ := holds
    have occupied := Listing.ne_nil_of_at?_leaf stands
    rw [List.mem_append, not_or] at outside
    have member : (names, held) ∈ inside.leaves [target.excluded] := by
      refine (Listing.mem_leaves site.ordered).mpr ⟨occupied, stands, ?_⟩
      intro name onTheWay passed
      rw [List.mem_singleton.mp passed] at onTheWay
      exact outside.2 onTheWay
    refine ⟨⟨names, held, member, counted, (site.ofText_descend tame stands).symm⟩, ?_⟩
    rw [Target.isNameOf, site.fileName?_descend occupied stands, named]
    exact beq_self_eq_true _

theorem not_wanted_of_excluded (site : Walk.Site disk context.base inside)
    (excluded : context.base.hasSegment target.excluded) :
    ¬Wanted target disk context.base inside file := by
  intro wanted
  obtain ⟨names, held, stands, rfl, counted, named, outside⟩ := (wanted_iff site).mp wanted
  rw [List.mem_append, not_or] at outside
  exact outside.1 (by simpa [Path.hasSegment] using excluded)

theorem filesBelow_pairwise (site : Walk.Site disk context.base inside)
    (tame : inside.EveryName IsTame) (skipped : List String) :
    (Walk.filesBelow disk skipped context.base.text inside).Pairwise fun left right =>
      left.segments.map Glob.encoded < right.segments.map Glob.encoded :=
  Walk.filesBelow_precedes site.ordered (fun _ _ stands => site.ofText_descend tame stands)
    fun _ _ stands => site.segments_descend stands

theorem search_of_excluded (excluded : context.base.hasSegment target.excluded) :
    (search target disk context).outcome = .ok [] := by
  unfold search
  rw [if_pos excluded]

theorem search_of_not_excluded (free : ¬context.base.hasSegment target.excluded) :
    (search target disk context).outcome =
      (Walk.files ⟨context.base, [target.excluded]⟩ disk).map fun files =>
        files.filter target.isNameOf := by
  unfold search
  rw [if_neg free]
  cases Walk.files ⟨context.base, [target.excluded]⟩ disk with
  | error failure => rfl
  | ok files => rfl

/-- A search that comes upon a directory too deep to be opened fails there. -/
theorem search_error (rooted : startsAtRoot context.base.text)
    (free : ¬context.base.hasSegment target.excluded)
    (found : disk.node true context.base.text = .ok (.dir inside))
    (long : ¬Walk.Openable [target.excluded] context.base.text inside) :
    ∃ names ∈ inside.dirs [target.excluded],
      Disk.pathLimit ≤ (RawText.descend context.base.text names).utf8ByteSize ∧
      (search target disk context).outcome =
        .error (.tree (RawText.descend context.base.text names) .nameTooLong) := by
  obtain ⟨names, member, size, failed⟩ := Walk.files_error rooted found long
  refine ⟨names, member, size, ?_⟩
  rw [search_of_not_excluded free, failed]
  rfl

/-- A search by name finds exactly the wanted files, each once and in order, unless it comes upon
a directory too deep to be opened. -/
theorem search_exact (site : Walk.Site disk context.base inside)
    (tame : inside.EveryName IsTame) :
    (context.base.hasSegment target.excluded ∨
        Walk.Openable [target.excluded] context.base.text inside →
      ∃ found, (search target disk context).outcome = .ok found ∧
        (∀ file, file ∈ found ↔ Wanted target disk context.base inside file) ∧
        found.Pairwise fun left right =>
          left.segments.map Glob.encoded < right.segments.map Glob.encoded) ∧
    (¬(context.base.hasSegment target.excluded ∨
        Walk.Openable [target.excluded] context.base.text inside) →
      ∃ names ∈ inside.dirs [target.excluded],
        Disk.pathLimit ≤ (RawText.descend context.base.text names).utf8ByteSize ∧
        (search target disk context).outcome =
          .error (.tree (RawText.descend context.base.text names) .nameTooLong)) := by
  by_cases excluded : context.base.hasSegment target.excluded
  · refine ⟨fun _ => ⟨[], search_of_excluded excluded, ?_, .nil⟩,
      fun blocked => absurd (.inl excluded) blocked⟩
    intro file
    exact iff_of_false (by simp) (not_wanted_of_excluded site excluded)
  · have free : target.excluded ∉ context.base.segments := by
      simpa [Path.hasSegment] using excluded
    constructor
    · intro either
      rcases either with impossible | short
      · exact absurd impossible excluded
      · rw [search_of_not_excluded excluded, Walk.files_eq site.grounded.2 site.found short]
        exact ⟨_, rfl, fun file => mem_filter_filesBelow site tame free,
          (filesBelow_pairwise site tame _).filter _⟩
    · intro blocked
      rw [not_or] at blocked
      exact search_error site.grounded.2 excluded site.found blocked.2

theorem search_exact_in_sample :
    let context : Context := { base := ⟨"/w"⟩ }
    let target : Target := ⟨"tsconfig.json", "node_modules"⟩
    ∃ found, (search target Walk.sampleDisk context).outcome = .ok found ∧
      (∀ file, file ∈ found ↔ Wanted target Walk.sampleDisk ⟨"/w"⟩ Walk.sampleListing file) ∧
      found.Pairwise fun left right =>
        left.segments.map Glob.encoded < right.segments.map Glob.encoded :=
  (search_exact Walk.site_sampleDisk Walk.tame_sampleListing).1 (.inr (by decide +kernel))

example : (search ⟨"tsconfig.json", "node_modules"⟩ Walk.sampleDisk { base := ⟨"/w"⟩ }).outcome =
    .ok [⟨"/w/src/tsconfig.json"⟩, ⟨"/w/tsconfig.json"⟩] := by
  decide +kernel

/-- Below a base with directories too deep to be opened no file is found. -/
theorem search_fails_in_depth :
    Walk.Site deepDisk ⟨"/w"⟩ deepListing ∧ deepListing.EveryName IsTame ∧
      ¬∃ found, (search ⟨"tsconfig.json", "node_modules"⟩ deepDisk { base := ⟨"/w"⟩ }).outcome =
        .ok found := by
  refine ⟨Walk.site_deepDisk, Walk.tame_deepListing, ?_⟩
  intro holds
  obtain ⟨found, outcome⟩ := holds
  let context : Context := { base := ⟨"/w"⟩ }
  let target : Target := ⟨"tsconfig.json", "node_modules"⟩
  have long : ¬Walk.Openable [target.excluded] context.base.text deepListing :=
    Walk.not_openable_deepListing (by decide)
  obtain ⟨names, -, -, failed⟩ :=
    search_error Walk.site_deepDisk.grounded.2 (by decide) Walk.site_deepDisk.found long
  exact absurd (outcome.symm.trans failed) (by simp)

end ManifestSearch.Discovered
