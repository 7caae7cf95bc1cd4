import ManifestSearch.Manifest
import ManifestSearch.Proofs.Json.Layout
import ManifestSearch.Tree.Disk

/-!
A generated manifest reads back from its text: the files in order, whatever characters they hold, and
the options if no number among them is a double. What a file holds to be a manifest of some files is
told by its text (`Holds`, `StandsAt`).
-/

namespace ManifestSearch

variable {rest : List Char} {fuel limit : Nat} {value : Json} {manifest : Manifest}

namespace Json

theorem parseWithin?_print (exact : value.Exact) (deep : value.depth ≤ limit) :
    parseWithin? limit value.print = some value := by
  obtain ⟨read, found, same⟩ := value?_print true value (fuelFor value.print) limit [] exact deep
    (by simp [fuelFor]) (by simp [Stops])
  rw [List.append_nil] at found
  rw [parseWithin?, found, same rfl]
  rfl

/-- The text of a value is found without its content being read. -/
theorem valueText?_print (exact : value.Exact) (stops : Stops rest) :
    valueText? (value.print ++ rest) = some (value.print, rest) := by
  have deep : value.depth ≤ (value.print ++ rest).length := by
    rw [List.length_append]
    exact Nat.le_add_right_of_le (depth_le_length value)
  obtain ⟨read, found, -⟩ := value?_print false value (fuelFor (value.print ++ rest)) _ rest exact
    deep (by simp [fuelFor]; omega) stops
  rw [valueText?, found, Option.map_some, List.length_append, Nat.add_sub_cancel, List.take_left]

theorem memberTexts?_cons (name : String) (members : List (String × Json)) (exact : value.Exact) :
    memberTexts? (fuel + 1) (printMembers ((name, value) :: members) ++ rest) =
      if members = [] then some ([(name, value.print)], rest)
      else (memberTexts? fuel (printMembers members ++ rest)).map fun read =>
        ((name, value.print) :: read.1, read.2) := by
  obtain ⟨more, start⟩ := printMembers_start (name, value) members rest
  rw [memberTexts?, start, skipBlank_cons (by rfl), ← start]
  rw [printMembers_cons, List.append_assoc, string?_quoted]
  simp only [List.cons_append, List.append_assoc, skipBlank_cons (show isBlank ':' = false from rfl)]
  by_cases last : members = []
  · rw [if_pos last, if_pos last, List.singleton_append, valueText?_print exact (by simp [Stops])]
    rfl
  · rw [if_neg last, if_neg last, List.cons_append, valueText?_print exact (by simp [Stops])]
    rfl

/-- The texts of the members are found one after the other. -/
theorem memberTexts?_print (name : String) (members : List (String × Json)) (fuel : Nat)
    (rest : List Char) (exact : ExactMembers ((name, value) :: members))
    (enough : members.length < fuel) :
    memberTexts? fuel (printMembers ((name, value) :: members) ++ rest) =
      some (((name, value) :: members).map fun member => (member.1, member.2.print), rest) := by
  induction members generalizing name value fuel with
  | nil =>
      obtain ⟨fuel, rfl⟩ := Nat.exists_eq_add_one.mpr enough
      rw [memberTexts?_cons name [] exact.1, if_pos rfl]
      rfl
  | cons next members ih =>
      obtain ⟨other, held⟩ := next
      obtain ⟨fuel, rfl⟩ := Nat.exists_eq_add_one.mpr (Nat.zero_lt_of_lt enough)
      rw [memberTexts?_cons name _ exact.1, if_neg (List.cons_ne_nil _ members),
        ih other fuel exact.2 (Nat.lt_of_succ_lt_succ enough)]
      rfl

theorem exact_strings (texts : List String) : (strings texts).Exact := by
  change ExactItems (texts.map .string)
  induction texts with
  | nil => exact trivial
  | cons text texts ih => exact ⟨trivial, ih⟩

theorem depth_strings (texts : List String) : (strings texts).depth = 1 := by
  have flat : itemsDepth (texts.map .string) = 0 := by
    induction texts with
    | nil => rfl
    | cons text texts ih => simp [itemsDepth, depth, ih]
  rw [strings, depth, flat]

end Json

/-- Different files are listed differently. -/
theorem Path.map_text_inj {files others : List Path} :
    files.map Path.text = others.map Path.text ↔ files = others := by
  refine List.map_inj_right fun left right same => ?_
  cases left
  cases right
  exact congrArg Path.mk same

namespace Manifest

open Json (depthLimit)

/-- A manifest as one value. Its members are not in the order of their names. -/
def members (manifest : Manifest) : List (String × Json) :=
  [("files", Json.strings manifest.files), ("compilerOptions", .object manifest.options)]

theorem files?_print (files : List String) : files? (Json.strings files).print = some files := by
  have read : Json.parseWithin? memberDepth (Json.strings files).print = some (Json.strings files) :=
    Json.parseWithin?_print (Json.exact_strings files) (by rw [Json.depth_strings]; decide)
  rw [files?, read]
  clear read
  change (files.map Json.string).mapM _ = some files
  induction files with
  | nil => rfl
  | cons file files ih =>
      rw [List.map_cons, List.mapM_cons, ih]
      rfl

theorem options?_print {options : Keyed Json} (exact : (Json.object options).Exact)
    (deep : (Json.object options).depth ≤ memberDepth) :
    options? (Json.object options).print = some options := by
  rw [options?, Json.parseWithin?_print exact deep]

theorem outline?_text (exact : (Json.object manifest.options).Exact) :
    Json.outline? manifest.text =
      some (.members (manifest.members.map fun member => (member.1, member.2.print))) := by
  have exact_members : Json.ExactMembers manifest.members :=
    ⟨Json.exact_strings manifest.files, exact, trivial⟩
  have chars : manifest.text.toList = '{' :: (Json.printMembers manifest.members ++ []) := by
    rw [text, String.toList_ofList, List.append_nil]
    rfl
  obtain ⟨more, start⟩ := Json.printMembers_start ("files", Json.strings manifest.files)
    [("compilerOptions", .object manifest.options)] []
  have texts := Json.memberTexts?_print "files" [("compilerOptions", .object manifest.options)]
    (Json.fuelFor ('"' :: more)) [] exact_members (by simp [Json.fuelFor])
  rw [start] at texts
  rw [members, start] at chars
  have closed (outline : Json.Outline) : Json.outline?.closed [] outline = some outline := rfl
  simp [Json.outline?, chars, Json.skipBlank_cons (show Json.isBlank '{' = false from rfl),
    Json.skipBlank_cons (show Json.isBlank '"' = false from rfl), texts, closed, members]

theorem read?_of_exact (exact : (Json.object manifest.options).Exact)
    (deep : (Json.object manifest.options).depth ≤ memberDepth) :
    read? manifest.text = some manifest := by
  have files := files?_print manifest.files
  have options := options?_print exact deep
  rw [read?, outline?_text exact]
  simp [members, only?, files, options]

/-- A text that is a manifest of some files with some options: one object of both, which is read as
such. Options with doubles among their numbers, and those too deep to be read, are only written. -/
structure Holds (text : String) (files : List Path) (options : Keyed Json) : Prop where
  object : text.toList = (Json.object [("files", .array (files.map fun file => .string file.text)),
    ("compilerOptions", .object options)]).print
  reads : (Json.object options).Exact → (Json.object options).depth ≤ memberDepth →
    read? text = some ⟨files.map Path.text, options⟩

theorem holds_ofPaths (files : List Path) (options : Keyed Json) :
    Holds (ofPaths files options).text files options := by
  constructor
  · have items : Json.strings (files.map Path.text) =
        .array (files.map fun file => .string file.text) := by
      rw [Json.strings, List.map_map]
      rfl
    rw [← items, text, String.toList_ofList]
    rfl
  · intro exact deep
    exact read?_of_exact exact deep

/-- A text leads to a file that is a manifest of some files with some options. -/
def StandsAt (disk : Disk) (text : String) (files : List Path) (options : Keyed Json) : Prop :=
  ∃ content, disk.read text = .ok content ∧ Holds content files options

/-- A manifest reads back from its text, which is one object with the members `files` and
`compilerOptions` in that order, with no blank between its parts. -/
theorem read?_text (exact : (Json.object manifest.options).Exact)
    (deep : (Json.object manifest.members).depth ≤ depthLimit) :
    read? manifest.text = some manifest ∧
      manifest.text.toList = (Json.object manifest.members).print ∧
      Json.outline? manifest.text =
        some (.members (manifest.members.map fun member => (member.1, member.2.print))) ∧
      Json.Compact manifest.text.toList := by
  have outline := outline?_text exact
  have chars : manifest.text.toList = (Json.object manifest.members).print := by
    rw [text, String.toList_ofList]
    rfl
  have exact_members : Json.ExactMembers manifest.members :=
    ⟨Json.exact_strings manifest.files, exact, trivial⟩
  have options_deep : (Json.object manifest.options).depth ≤ memberDepth := by
    have within : (Json.object manifest.options).depth ≤ Json.membersDepth manifest.members := by
      rw [members, Json.membersDepth, Json.membersDepth]
      exact Nat.le_trans (Nat.le_max_left _ _) (Nat.le_max_right _ _)
    rw [Json.depth] at deep
    exact Nat.le_trans within (Nat.le_sub_of_add_le deep)
  refine ⟨read?_of_exact exact options_deep, chars, outline, ?_⟩
  rw [chars, Json.print]
  have empty : Json.Compact [] := by simp [Json.Compact, Json.outside]
  have parts := Json.compact_printMembers manifest.members [] exact_members
  rw [List.append_nil] at parts
  exact (Json.compact_cons (by decide) (by rfl)).mpr (parts.mpr empty)

/-- A manifest with quotes, control characters and characters beyond them in a name and in a key, and
with both ends of the whole numbers. -/
def oddManifest : Manifest where
  files := ["a \"b\"\\c", "\n\x01é", ""]
  options := [("\t☃", .array [.number (.whole 18446744073709551615),
      .number (.belowZero ⟨9223372036854775807, by decide⟩)]),
    ("x", .object [("", .object []), ("y", .null)])]

theorem read?_text_of_odd :
    read? oddManifest.text = some oddManifest ∧ Json.Compact oddManifest.text.toList := by
  have ordered : Keyed.Ordered oddManifest.options := by
    unfold Keyed.Ordered
    decide +kernel
  have inner : Keyed.Ordered [("", Json.object []), ("y", .null)] := by
    unfold Keyed.Ordered
    decide +kernel
  have exact : (Json.object oddManifest.options).Exact :=
    ⟨ordered, ⟨trivial, trivial, trivial⟩, ⟨inner, ⟨.nil, trivial⟩, trivial, trivial⟩, trivial⟩
  have deep : (Json.object oddManifest.members).depth ≤ depthLimit := by decide +kernel
  obtain ⟨read, -, -, compact⟩ := read?_text exact deep
  exact ⟨read, compact⟩

end Manifest

end ManifestSearch
