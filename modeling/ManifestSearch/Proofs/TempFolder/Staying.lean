import ManifestSearch.Proofs.Path.Above
import ManifestSearch.Proofs.TempFolder.Affixes

/-!
Where a generated file stands. The path that is answered stands directly in the folder, under a name
between the stem and the ending, and names the new file, exactly if neither of the two separates
segments (`writeNew_stays_iff`). A slash in them leads into another directory, and a backslash,
which is part of the name of the file, separates segments in the path.
-/

namespace ManifestSearch

open ManifestSearch.Path (Spelled Start IsSegment)

variable {world next : World} {folder : TempFolder} {stem ending content : String} {path : Path}
  {start : Start} {segments : List (List Char)} {last : List Char} {name : String} {tag : Tag}

theorem Path.Spelled.parent?_of_network (spelling : path.Spelled .network [last]) :
    path.parent? = some ⟨"/"⟩ := by
  have noSlash := (spelling.plain last (by simp)).noSlash
  have cut : Text.cutLast? '/' path.trimmed = some (['/'], last) := by
    rw [spelling.trimmed_eq (by simp), spelling.text]
    exact Text.cutLast?_append ['/'] noSlash
  rw [Path.parent?, cut]

/-- Only a network root alone is written with two slashes and no more. -/
theorem Path.Spelled.single_iff (spelling : path.Spelled start segments) :
    start = .rooted ∨ segments ≠ [] ↔ path.text ≠ "//" := by
  have atRoot := spelling.atRoot
  rw [← String.toList_inj.ne, spelling.text]
  cases start with
  | relative => contradiction
  | rooted =>
      refine iff_of_true (.inl rfl) fun doubled => ?_
      have head := joined_head_ne_slash spelling.plain
      rw [(List.cons.inj doubled).2] at head
      exact head rfl
  | network =>
      have alone : Text.joined '/' segments = [] ↔ segments = [] :=
        Text.joined_eq_nil fun segment member => (spelling.plain segment member).full
      simp [Path.spelled, alone]

/-- One segment further, the path above is the one that there was, but for a network root alone. -/
theorem Path.Spelled.parent?_iff {longer : Path} (spelling : path.Spelled start segments)
    (further : longer.Spelled start (segments ++ [last])) :
    longer.parent? = some path ↔ path.text ≠ "//" := by
  rw [← spelling.single_iff]
  constructor
  · intro above
    by_contra network
    obtain ⟨other, top⟩ := not_or.mp network
    obtain rfl : segments = [] := not_not.mp top
    cases start with
    | relative => exact spelling.atRoot rfl
    | rooted => exact other rfl
    | network =>
        rw [further.parent?_of_network, Option.some.injEq] at above
        have text := spelling.text
        rw [← above] at text
        cases text
  · exact spelling.parent?_eq further

theorem Path.ofText_fileName?_plain {text : String} (rooted : startsAtRoot text)
    (named : (Path.ofText text).fileName? = some name) : IsPlainText name := by
  obtain ⟨start, segments, spelling, free⟩ := Path.ofText_spelled rooted
  rw [spelling.fileName?_eq, spelling.segments_eq, List.getLast?_map,
    Option.map_eq_some_iff] at named
  obtain ⟨segment, ending, rfl⟩ := named
  have member := List.mem_of_getLast? ending
  rw [IsPlainText, String.toList_ofList]
  exact ⟨(spelling.plain segment member).noSlash, free segment member⟩

theorem IsPlainText.of_subset {part : String} (plain : IsPlainText name)
    (inside : part.toList ⊆ name.toList) : IsPlainText part :=
  ⟨fun slash => plain.1 (inside slash), fun backslash => plain.2 (inside backslash)⟩

namespace TempFolder

/-- The folders that there are: in a given directory, or in one made for it. -/
inductive Built : TempFolder → Prop where
  | inDir {disk : Disk} {text : String} {folder : TempFolder}
      (made : inDir disk text = .ok folder) : Built folder
  | make {systemTemp : String} {world next : World} {folder : TempFolder}
      (made : make systemTemp world = (.ok folder, next)) : Built folder

theorem Built.grounded (built : Built folder) : folder.dir.Grounded := by
  cases built with
  | inDir made =>
      unfold TempFolder.inDir at made
      split at made
      · rename_i read
        cases made
        exact Walk.grounded_of_absolute read
      · contradiction
  | make made =>
      unfold TempFolder.make at made
      split at made
      · simp at made
      · split at made
        · rename_i read
          cases made
          exact Walk.grounded_of_absolute read
        · simp at made

/-- A path stands directly in a folder, under a name between a stem and an ending, and names a file
with a content. -/
structure Stays (folder : TempFolder) (stem ending content : String) (disk : Disk) (path : Path) :
    Prop where
  above : path.parent? = some folder.dir
  named : ∃ name, path.fileName? = some name ∧ stem.toList <+: name.toList ∧
    ending.toList <:+ name.toList
  holds : disk.node true path.text = .ok (.leaf (.file content))

/-- What is written stays in its folder exactly if neither the stem nor the ending has a slash or a
backslash; only the folder at a network root is never seen above its files. -/
theorem writeNew_stays_iff (built : Built folder)
    (written : folder.writeNew stem ending content world = (.ok path, next)) :
    Stays folder stem ending content next.disk path ↔
      IsPlainText stem ∧ IsPlainText ending ∧ folder.dir.text ≠ "//" := by
  have grounded := built.grounded
  obtain ⟨tag, place, rfl, wrote⟩ := writeNew_wrote grounded.2 written
  have rooted : startsAtRoot (TempFolder.place folder.dir.text stem ending tag) :=
    RawText.startsAtRoot_join grounded.2 _
  obtain ⟨start, segments, spelling, free⟩ := grounded.spelled
  constructor
  · rintro ⟨above, ⟨name, named, front, back⟩, -⟩
    have plain := Path.ofText_fileName?_plain rooted named
    have stemPlain := plain.of_subset front.subset
    have endingPlain := plain.of_subset back.subset
    obtain ⟨shown, longer⟩ := spelled_place spelling free stemPlain endingPlain tag
    rw [shown] at above
    exact ⟨stemPlain, endingPlain, (spelling.parent?_iff longer).mp above⟩
  · rintro ⟨stemPlain, endingPlain, single⟩
    obtain ⟨shown, longer⟩ := spelled_place spelling free stemPlain endingPlain tag
    rw [shown]
    have holds := Disk.node_of_reach wrote.reached wrote.placed
    refine ⟨?_, ⟨stem ++ tag.text ++ ending, ?_, ?_, ?_⟩, holds⟩
    · exact (spelling.parent?_iff longer).mpr single
    · rw [longer.fileName?_concat, String.ofList_toList]
    · rw [String.toList_append, String.toList_append, List.append_assoc]
      exact List.prefix_append _ _
    · rw [String.toList_append]
      exact List.suffix_append _ _

def sampleFolder : TempFolder := { dir := ⟨"/w/src/made"⟩ }

theorem built_sampleFolder : Built sampleFolder := by
  have made : TempFolder.inDir Walk.sampleDisk "/w/src/made" = .ok sampleFolder := by decide +kernel
  exact .inDir made

/-- A backslash in a stem leaves a path into a directory that does not exist. -/
theorem writeNew_stays_iff_in_sample :
    (∃ next, sampleFolder.writeNew "tsconfig-" ".json" "text" Synthesis.sampleWorld =
        (.ok ⟨"/w/src/made/tsconfig-aaaaaa.json"⟩, next) ∧
      Stays sampleFolder "tsconfig-" ".json" "text" next.disk
        ⟨"/w/src/made/tsconfig-aaaaaa.json"⟩) ∧
    ∃ next, sampleFolder.writeNew "a\\b-" ".json" "text" Synthesis.sampleWorld =
        (.ok ⟨"/w/src/made/a/b-aaaaaa.json"⟩, next) ∧
      ¬Stays sampleFolder "a\\b-" ".json" "text" next.disk ⟨"/w/src/made/a/b-aaaaaa.json"⟩ := by
  have answers (stem : String) (path : Path)
      (outcome : (sampleFolder.writeNew stem ".json" "text" Synthesis.sampleWorld).1 = .ok path) :
      ∃ next, sampleFolder.writeNew stem ".json" "text" Synthesis.sampleWorld = (.ok path, next) :=
    ⟨_, Prod.ext outcome rfl⟩
  constructor
  · obtain ⟨next, written⟩ := answers "tsconfig-" ⟨"/w/src/made/tsconfig-aaaaaa.json"⟩
      (by decide +kernel)
    exact ⟨next, written, (writeNew_stays_iff built_sampleFolder written).mpr (by decide)⟩
  · obtain ⟨next, written⟩ := answers "a\\b-" ⟨"/w/src/made/a/b-aaaaaa.json"⟩ (by decide +kernel)
    exact ⟨next, written, (writeNew_stays_iff built_sampleFolder written).not.mpr (by decide)⟩

end TempFolder

end ManifestSearch
