import ManifestSearch.CommandLine.Search
import ManifestSearch.Proofs.Manifest.Reading
import ManifestSearch.Proofs.Text.Pieces

/-!
What the printed manifests tell. An array always reads back as the texts of the paths, whatever
characters are in them. Lines read back as the texts of the paths exactly if no line break is in one of
them: a path with a line break takes up several lines, as other paths would.
-/

namespace ManifestSearch

variable {files others : List Path} {value : Json}

/-- A value reads back from a line of its own. -/
theorem Json.parse?_line (exact : value.Exact) (deep : value.depth ≤ depthLimit) :
    parse? (value.text ++ "\n") = some value := by
  have chars : (value.text ++ "\n").toList = value.print ++ ['\n'] := by simp [text]
  obtain ⟨read, found, same⟩ := value?_print true value (fuelFor (value.print ++ ['\n'])) depthLimit
    ['\n'] exact deep (by simp [fuelFor]; omega) (by simp [Stops])
  rw [parse?, parseWithin?, chars, found, same rfl]
  rfl

theorem Json.strings_inj {texts more : List String} : strings texts = strings more ↔ texts = more := by
  rw [strings, strings, Json.array.injEq, List.map_inj_right fun _ _ same => Json.string.inj same]

namespace Text

/-- The lines of a text in which every line is ended. -/
def lines? (text : String) : Option (List String) :=
  let found := pieces '\n' text.toList
  if found.getLast? = some [] then some (found.dropLast.map String.ofList) else none

theorem pieces_ended (parts : List (List Char)) :
    pieces '\n' (parts.flatMap (· ++ ['\n'])) = parts.flatMap (pieces '\n') ++ [[]] := by
  induction parts with
  | nil => rfl
  | cons part parts ih =>
      rw [List.flatMap_cons, List.append_assoc, List.singleton_append, pieces_append, ih,
        List.flatMap_cons, List.append_assoc]

end Text

namespace Path

/-- The lines that a path takes up. -/
def shownLines (path : Path) : List String := (Text.pieces '\n' path.text.toList).map String.ofList

theorem shownLines_of_not_mem {path : Path} (free : '\n' ∉ path.text.toList) :
    path.shownLines = [path.text] := by
  simp [shownLines, Text.pieces_of_not_mem free]

theorem flatMap_shownLines_iff :
    files.flatMap shownLines = files.map Path.text ↔ ∀ file ∈ files, '\n' ∉ file.text.toList := by
  constructor
  · intro same file member
    -- The text of the path is itself a line, and no line has a line break.
    have shown : file.text ∈ files.flatMap shownLines := same ▸ List.mem_map_of_mem member
    obtain ⟨other, -, line⟩ := List.mem_flatMap.mp shown
    obtain ⟨piece, inside, text⟩ := List.mem_map.mp line
    rw [← text, String.toList_ofList]
    exact Text.not_mem_of_mem_pieces inside
  · intro free
    have single : files.map shownLines = files.map fun file => [file.text] :=
      List.map_congr_left fun file member => shownLines_of_not_mem (free file member)
    rw [List.map_eq_flatMap, List.flatMap_def, single, List.flatMap_def]

end Path

namespace CommandLine

theorem lines?_render (files : List Path) :
    Text.lines? (render false files) = some (files.flatMap Path.shownLines) := by
  have chars : (render false files).toList =
      (files.map fun file => file.text.toList).flatMap (· ++ ['\n']) := by
    simp [render, String.toList_join, List.flatMap_map]
  have ended : Text.pieces '\n' (render false files).toList =
      (files.flatMap fun file => Text.pieces '\n' file.text.toList) ++ [[]] := by
    rw [chars, Text.pieces_ended, List.flatMap_map]
  have shown : (files.flatMap fun file => Text.pieces '\n' file.text.toList).map String.ofList =
      files.flatMap Path.shownLines := List.map_flatMap
  simp only [Text.lines?, ended, List.getLast?_concat, List.dropLast_concat, shown, if_pos]

/-- An array reads back as the texts of the paths. Lines do if and only if no text has a line break. -/
theorem render_reads_back (files : List Path) :
    Json.parse? (render true files) = some (Json.strings (files.map Path.text)) ∧
      Text.lines? (render false files) = some (files.flatMap Path.shownLines) ∧
      (Text.lines? (render false files) = some (files.map Path.text) ↔
        ∀ file ∈ files, '\n' ∉ file.text.toList) ∧
      (∀ others, render true files = render true others ↔ files = others) ∧
      ∀ others, (∀ file ∈ files ++ others, '\n' ∉ file.text.toList) →
        (render false files = render false others ↔ files = others) := by
  have array (files : List Path) :
      Json.parse? (render true files) = some (Json.strings (files.map Path.text)) :=
    Json.parse?_line (Json.exact_strings _) (by rw [Json.depth_strings]; decide)
  have lines (files : List Path) : Text.lines? (render false files) = some (files.map Path.text) ↔
      ∀ file ∈ files, '\n' ∉ file.text.toList := by
    rw [lines?_render, Option.some.injEq, Path.flatMap_shownLines_iff]
  refine ⟨array files, lines?_render files, lines files, fun others => ?_, fun others free => ?_⟩
  · refine ⟨fun same => ?_, congrArg (render true)⟩
    have read := array files
    rw [same, array others, Option.some.injEq, Json.strings_inj, Path.map_text_inj] at read
    exact read.symm
  · refine ⟨fun same => ?_, congrArg (render false)⟩
    have read := (lines files).mpr fun file member => free file (List.mem_append_left others member)
    have other := (lines others).mpr fun file member => free file (List.mem_append_right files member)
    rw [same, other, Option.some.injEq, Path.map_text_inj] at read
    exact read.symm

/-- A path with a line break is printed as two paths are. -/
theorem render_reads_back_in_sample :
    let broken : Path := ⟨"/w/a\n/w/b"⟩
    broken.Canonical ∧ Json.parse? (render true [broken]) = some (.array [.string broken.text]) ∧
      Text.lines? (render false [broken]) ≠ some [broken.text] ∧
      render false [broken] = render false [⟨"/w/a"⟩, ⟨"/w/b"⟩] := by
  intro broken
  obtain ⟨array, -, lines, -, -⟩ := render_reads_back [broken]
  refine ⟨by decide +kernel, array, fun read => ?_, by decide⟩
  exact absurd (lines.mp read broken (.head _)) (by decide)

end CommandLine

end ManifestSearch
