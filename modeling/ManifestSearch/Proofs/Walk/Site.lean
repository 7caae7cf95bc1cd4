import ManifestSearch.Proofs.Walk.Run
import ManifestSearch.Report

/-!
The directory that a search starts from, and the files that a walk of it lists. Where no name has a
backslash in it, a listed file is spelled as the directory and the names on the way, so the files
below a directory further down are a stretch of all files.
-/

namespace ManifestSearch.Walk

open ManifestSearch.Path (Spelled IsSegment Start)

/-- A path from the root that names a directory with some entries. -/
structure Site (disk : Disk) (base : Path) (inside : Listing) : Prop where
  sound : disk.Sound
  grounded : base.Grounded
  found : disk.node true base.text = .ok (.dir inside)

instance (disk : Disk) (base : Path) (inside : Listing) : Decidable (Site disk base inside) :=
  decidable_of_iff (disk.Sound ∧ base.Grounded ∧ disk.node true base.text = .ok (.dir inside))
    ⟨fun ⟨sound, grounded, found⟩ => ⟨sound, grounded, found⟩,
      fun site => ⟨site.sound, site.grounded, site.found⟩⟩

variable {disk : Disk} {base file : Path} {inside deeper : Listing} {skipped : List String}
  {names front : Location} {node : Node} {held : Leaf} {start : Start} {above : String}
  {segments : List (List Char)}

/-- The directory at a place, unless it is the top, and all below it have texts that can be
opened. -/
def OpenableFrom (front : Location) (above : String) (inside : Listing) : Prop :=
  ∀ names ∈ inside.dirs [], front <+: names →
    (RawText.descend above names).utf8ByteSize < Disk.pathLimit

instance (front : Location) (above : String) (inside : Listing) :
    Decidable (OpenableFrom front above inside) :=
  inferInstanceAs (Decidable (∀ names ∈ inside.dirs [], _))

/-- Every path read from the working directory is grounded. -/
theorem grounded_of_absolute {text : String} (read : disk.absolute text = .ok file) :
    file.Grounded := by
  obtain ⟨-, -, rfl⟩ := Disk.absolute_ok read
  exact Path.ofText_grounded (by simp [startsAtRoot, disk.head_fromHere text])

namespace Site

theorem place (site : Site disk base inside) :
    ∃ top, disk.root.at? top = some (.dir inside) := by
  obtain ⟨top, -, held⟩ := Disk.node_ok site.grounded.2 site.found
  exact ⟨top, held⟩

theorem ordered (site : Site disk base inside) : inside.Ordered := by
  obtain ⟨top, held⟩ := site.place
  exact site.sound.ordered.at? held

theorem named (site : Site disk base inside) : inside.EveryName IsEntryName := by
  obtain ⟨top, held⟩ := site.place
  exact (site.sound.named.at? held).2 inside rfl

theorem valid (site : Site disk base inside) (held : inside.at? names = some node) :
    ∀ name ∈ names, IsEntryName name :=
  (site.named.at? held).1

theorem plain (site : Site disk base inside) (held : inside.at? names = some node) :
    ∀ name ∈ names, IsSegment name.toList :=
  fun name member => (site.valid held name member).segment

theorem ofText_of_tame (site : Site disk base inside) (held : inside.at? names = some node)
    (tame : ∀ name ∈ names, IsTame name) :
    Path.ofText (RawText.descend base.text names) = ⟨RawText.descend base.text names⟩ := by
  obtain ⟨start, segments, spelling, free⟩ := site.grounded.spelled
  exact spelling.ofText_descend free (site.plain held) tame

theorem ofText_descend (site : Site disk base inside) (tame : inside.EveryName IsTame)
    (held : inside.at? names = some node) :
    Path.ofText (RawText.descend base.text names) = ⟨RawText.descend base.text names⟩ :=
  site.ofText_of_tame held (tame.at? held).1

theorem segments_descend (site : Site disk base inside) (held : inside.at? names = some node) :
    Path.segments ⟨RawText.descend base.text names⟩ = base.segments ++ names := by
  obtain ⟨start, segments, spelling, -⟩ := site.grounded.spelled
  exact spelling.segments_descend (site.plain held)

theorem fileName?_descend (site : Site disk base inside) (occupied : names ≠ [])
    (held : inside.at? names = some node) :
    Path.fileName? ⟨RawText.descend base.text names⟩ = names.getLast? := by
  obtain ⟨start, segments, spelling, -⟩ := site.grounded.spelled
  exact spelling.fileName?_descend occupied (site.plain held)

theorem at?_of_mem_leaves (site : Site disk base inside)
    (member : (names, held) ∈ inside.leaves skipped) : inside.at? names = some (.leaf held) :=
  ((Listing.mem_leaves site.ordered).mp member).2.1

theorem node_below (site : Site disk base inside) (short : OpenableFrom names base.text inside)
    (held : inside.at? names = some (.dir deeper)) :
    disk.node true (RawText.descend base.text names) = .ok (.dir deeper) := by
  obtain ⟨start, segments, spelling, -⟩ := site.grounded.spelled
  by_cases empty : names = []
  · subst empty
    cases held
    exact site.found
  · refine Disk.node_descend spelling site.found empty (site.valid held) ?_ held (by simp)
    have entered : names ∈ inside.dirs [] :=
      (Listing.mem_dirs site.ordered).mpr ⟨empty, ⟨deeper, held⟩, by simp⟩
    exact short names entered List.prefix_rfl

end Site

theorem mem_filesBelow : file ∈ filesBelow disk skipped above inside ↔
    ∃ names held, (names, held) ∈ inside.leaves skipped ∧
      counts disk (RawText.descend above names) held ∧
      file = Path.ofText (RawText.descend above names) := by
  simp only [filesBelow, listed, List.mem_map, List.mem_filter, Prod.exists, and_assoc,
    @eq_comm _ _ file]

/-- Names lead from a directory to a file, or to a link that leads to one. -/
def HasFile (disk : Disk) (above : String) (inside : Listing) (names : Location) : Prop :=
  ∃ held, inside.at? names = some (.leaf held) ∧ counts disk (RawText.descend above names) held

theorem HasFile.occupied (has : HasFile disk above inside names) : names ≠ [] := by
  obtain ⟨held, stands, -⟩ := has
  exact Listing.ne_nil_of_at?_leaf stands

theorem HasFile.plain (has : HasFile disk base.text inside names) (site : Site disk base inside) :
    ∀ name ∈ names, IsSegment name.toList := by
  obtain ⟨held, stands, -⟩ := has
  exact site.plain stands

theorem mem_filesBelow_of_canonical (ordered : inside.Ordered)
    (canonical : ∀ names held, inside.at? names = some (.leaf held) →
      Path.ofText (RawText.descend above names) = ⟨RawText.descend above names⟩) :
    file ∈ filesBelow disk skipped above inside ↔
      ∃ names, HasFile disk above inside names ∧ (∀ name ∈ names.dropLast, name ∉ skipped) ∧
        file = ⟨RawText.descend above names⟩ := by
  rw [mem_filesBelow]
  constructor
  · rintro ⟨names, held, member, counted, rfl⟩
    obtain ⟨-, stands, passed⟩ := (Listing.mem_leaves ordered).mp member
    exact ⟨names, ⟨held, stands, counted⟩, passed, canonical names held stands⟩
  · rintro ⟨names, has, passed, rfl⟩
    have occupied := has.occupied
    obtain ⟨held, stands, counted⟩ := has
    exact ⟨names, held, (Listing.mem_leaves ordered).mpr ⟨occupied, stands, passed⟩, counted,
      (canonical names held stands).symm⟩

theorem Site.mem_filesBelow_iff (site : Site disk base inside) (tame : inside.EveryName IsTame) :
    file ∈ filesBelow disk skipped base.text inside ↔
      ∃ names, HasFile disk base.text inside names ∧ (∀ name ∈ names.dropLast, name ∉ skipped) ∧
        file = ⟨RawText.descend base.text names⟩ :=
  mem_filesBelow_of_canonical site.ordered fun _ _ stands => site.ofText_descend tame stands

theorem filter_listed {entries : List (Location × Leaf)} {chosen : Path → Bool}
    {passes : Location × Leaf → Bool} (needed : ∀ entry ∈ entries,
      chosen (Path.ofText (RawText.descend above entry.1)) → passes entry) :
    (listed disk above (entries.filter passes)).filter chosen =
      (listed disk above entries).filter chosen := by
  simp only [listed, List.filter_map, List.filter_filter, Function.comp_def]
  congr 1
  refine List.filter_congr fun entry member => ?_
  by_cases wanted : chosen (Path.ofText (RawText.descend above entry.1))
  · simp [wanted, needed entry member wanted]
  · simp [wanted]

theorem listed_below (ordered : inside.Ordered) (found : inside.at? front = some (.dir deeper)) :
    listed disk above ((inside.leaves []).filter fun entry => front <+: entry.1) =
      filesBelow disk [] (RawText.descend above front) deeper := by
  rw [Listing.leaves_below ordered found, listed_descend]
  rfl

theorem Openable.skipping (short : Openable [] above inside) (ordered : inside.Ordered)
    (skipped : List String) : Openable skipped above inside := by
  intro names member
  obtain ⟨occupied, held, -⟩ := (Listing.mem_dirs ordered).mp member
  exact short names ((Listing.mem_dirs ordered).mpr ⟨occupied, held, by simp⟩)

theorem OpenableFrom.below (short : OpenableFrom front above inside) (ordered : inside.Ordered)
    (found : inside.at? front = some (.dir deeper)) :
    Openable [] (RawText.descend above front) deeper := by
  intro names member
  obtain ⟨occupied, ⟨last, held⟩, -⟩ :=
    (Listing.mem_dirs (ordered.at? found)).mp member
  have whole : inside.at? (front ++ names) = some (.dir last) :=
    (Listing.at?_append found names).trans held
  have entered : front ++ names ∈ inside.dirs [] :=
    (Listing.mem_dirs ordered).mpr ⟨by simp [occupied], ⟨last, whole⟩, by simp⟩
  rw [← RawText.descend_append]
  exact short _ entered (List.prefix_append front names)

/-- A walk of a directory further down finds all files of a choice that chooses only below it. -/
theorem Site.files_filter_below {chosen : Path → Bool} (site : Site disk base inside)
    (short : OpenableFrom names base.text inside) (found : inside.at? names = some (.dir deeper))
    (within : ∀ entry ∈ inside.leaves [],
      chosen (Path.ofText (RawText.descend base.text entry.1)) → names <+: entry.1) :
    (files ⟨⟨RawText.descend base.text names⟩, []⟩ disk).map (fun all => all.filter chosen) =
      .ok ((filesBelow disk [] base.text inside).filter chosen) := by
  obtain ⟨start, segments, spelling, -⟩ := site.grounded.spelled
  have walked := files_eq (spelling.descend (site.plain found)).startsAtRoot
    (site.node_below short found) (short.below site.ordered found)
  rw [walked, ← listed_below site.ordered found]
  refine congrArg Except.ok (filter_listed fun entry member selected => ?_)
  exact decide_eq_true (within entry member selected)

/-- Where no entry but a directory is one by its text, no links lead to directories. -/
theorem Site.noDirLinks (site : Site disk base inside)
    (others : ∀ entry ∈ inside.leaves [], ¬disk.isDir (RawText.descend base.text entry.1)) :
    disk.NoDirLinks base.text inside := by
  intro names target held
  have occupied := Listing.ne_nil_of_at?_leaf held
  have member : (names, .link target) ∈ inside.leaves [] :=
    (Listing.mem_leaves site.ordered).mpr ⟨occupied, held, by simp⟩
  exact others (names, .link target) member

def sampleListing : Listing :=
  .dir "node_modules" (.dir "pkg" (.leaf "tsconfig.json" (.file "") .nil) .nil)
    (.dir "src" (.leaf "app.ts" (.file "") (.leaf "tsconfig.json" (.file "") .nil))
      (.leaf "tsconfig.json" (.link "src/tsconfig.json") .nil))

def sampleDisk : Disk := ⟨.dir "w" sampleListing .nil, [], false⟩

theorem site_sampleDisk : Site sampleDisk ⟨"/w"⟩ sampleListing := by decide +kernel

theorem tame_sampleListing : sampleListing.EveryName IsTame := by decide +kernel

end ManifestSearch.Walk
