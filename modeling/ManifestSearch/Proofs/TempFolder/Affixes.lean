import ManifestSearch.Proofs.Strategy.Synthesis

/-!
The two halves that a convention gives to a generated name. The file name of the convention is cut in
front of its extension, if it has one (`affixes_cases`), and whatever stands between the halves, the
extension is the same. Without slashes in the halves a generated name is one segment behind its folder.
-/

namespace ManifestSearch

open ManifestSearch.Path (Spelled Start extensionOf?)

variable {name stem ending : String} {convention : Convention} {folder : TempFolder} {start : Start}
  {segments : List (List Char)}

namespace Path

theorem extensionOf?_append (full : stem ≠ "") (free : '.' ∉ ending.toList) :
    extensionOf? (stem ++ "." ++ ending) = some ending := by
  have cut : Text.cutLast? '.' (stem ++ "." ++ ending).toList = some (stem.toList, ending.toList) := by
    simpa using Text.cutLast?_append stem.toList free
  have occupied : stem.toList ≠ [] := by simpa using full
  obtain ⟨first, rest, chars⟩ := List.exists_cons_of_ne_nil occupied
  rw [chars] at cut
  rw [extensionOf?, cut]
  exact congrArg some String.ofList_toList

/-- A dot in front of a name begins no extension. -/
theorem extensionOf?_eq_none (free : '.' ∉ name.toList.tail) : extensionOf? name = none := by
  rw [extensionOf?]
  split
  · rename_i first stem extension cut
    rw [Text.cutLast?_eq_some cut] at free
    simp at free
  · rfl

end Path

namespace Convention

/-- A file name is cut in front of its extension, and one without an extension is not cut. -/
theorem affixes_cases (convention : Convention) :
    (∃ stem ending, stem ≠ "" ∧ '.' ∉ ending.toList ∧
        convention.fileName = stem ++ "." ++ ending ∧
        convention.affixes = (stem ++ "-", "." ++ ending)) ∨
      '.' ∉ convention.fileName.toList.tail ∧
        convention.affixes = (convention.fileName ++ "-", "") := by
  unfold affixes
  split
  · rename_i first stem ending cut
    have free := Text.not_mem_of_cutLast? cut
    have whole := Text.cutLast?_eq_some cut
    refine .inl ⟨String.ofList (first :: stem), String.ofList ending, by simp, by simpa using free,
      ?_, ?_⟩
    · rw [← String.toList_inj, whole]
      simp
    · rw [Prod.mk.injEq, ← String.toList_inj, ← String.toList_inj]
      simp
  · rename_i uncut
    refine .inr ⟨fun dot => ?_, rfl⟩
    cases chars : convention.fileName.toList with
    | nil => simp [chars] at dot
    | cons first rest =>
        rw [chars] at dot uncut
        cases cut : Text.cutLast? '.' rest with
        | none => exact Text.cutLast?_eq_none_iff.mp cut dot
        | some halves => exact uncut first halves.1 halves.2 (by simp [Text.cutLast?, cut])

/-- Nothing without a dot in it changes the extension when it stands between the halves. -/
theorem affixes_spec (named : convention.fileName ≠ "") :
    ∃ text ending, convention.affixes = (text ++ "-", ending) ∧ text ++ ending = convention.fileName ∧
      ∀ random : String, '.' ∉ random.toList →
        extensionOf? (text ++ "-" ++ random ++ ending) = extensionOf? convention.fileName := by
  rcases convention.affixes_cases with ⟨stem, ending, full, free, whole, halves⟩ | ⟨free, halves⟩
  · refine ⟨stem, "." ++ ending, halves, by rw [whole, String.append_assoc], fun random _ => ?_⟩
    have longer : stem ++ "-" ++ random ≠ "" := by simp [full]
    rw [whole, Path.extensionOf?_append full free, ← String.append_assoc,
      Path.extensionOf?_append longer free]
  · refine ⟨convention.fileName, "", halves, String.append_empty, fun random noDot => ?_⟩
    have occupied : convention.fileName.toList ≠ [] := by simpa using named
    obtain ⟨first, rest, chars⟩ := List.exists_cons_of_ne_nil occupied
    have between : '.' ∉ (convention.fileName ++ "-" ++ random ++ "").toList.tail := by
      rw [chars] at free
      simpa [chars, noDot] using free
    rw [Path.extensionOf?_eq_none free, Path.extensionOf?_eq_none between]

theorem affixes_plain (plain : IsPlainText convention.fileName) :
    IsPlainText convention.affixes.1 ∧ IsPlainText convention.affixes.2 := by
  rcases convention.affixes_cases with ⟨stem, ending, -, -, whole, halves⟩ | ⟨-, halves⟩
  · rw [whole] at plain
    rw [halves]
    simp [IsPlainText] at plain ⊢
    tauto
  · rw [halves]
    simpa [IsPlainText] using plain

end Convention

namespace TempFolder

/-- Without slashes in it, a generated name is one segment behind those of the folder. -/
theorem spelled_place (spelling : folder.dir.Spelled start segments)
    (free : ∀ segment ∈ segments, '\\' ∉ segment) (stemPlain : IsPlainText stem)
    (endingPlain : IsPlainText ending) (tag : Tag) :
    Path.ofText (place folder.dir.text stem ending tag) = ⟨place folder.dir.text stem ending tag⟩ ∧
      Spelled ⟨place folder.dir.text stem ending tag⟩ start
        (segments ++ [(stem ++ tag.text ++ ending).toList]) := by
  obtain ⟨plain, tame⟩ := isSegment_generated tag stemPlain endingPlain
  have longer := spelling.enter plain
  refine ⟨longer.ofText_text fun segment member => ?_, longer⟩
  rcases List.mem_append.mp member with member | member
  · exact free segment member
  · rwa [List.mem_singleton.mp member]

/-- Without slashes in it, a generated name is the file name of its path. -/
theorem fileName?_place (grounded : folder.dir.Grounded) (stemPlain : IsPlainText stem)
    (endingPlain : IsPlainText ending) (tag : Tag) :
    (Path.ofText (place folder.dir.text stem ending tag)).fileName? =
      some (stem ++ tag.text ++ ending) := by
  obtain ⟨start, segments, spelling, free⟩ := grounded.spelled
  obtain ⟨shown, longer⟩ := spelled_place spelling free stemPlain endingPlain tag
  rw [shown, longer.fileName?_concat, String.ofList_toList]

end TempFolder

end ManifestSearch
