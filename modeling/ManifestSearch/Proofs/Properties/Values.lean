import ManifestSearch.Properties
import ManifestSearch.Proofs.Text.Trimming

/-!
Values as they are kept. A text is separated at its commas, and of the items those are kept that are
more than blanks, without the blanks around them. What is kept is not changed by being tidied again,
and it can be written as one text again if no comma is in it (`tidied_commaItems_intercalate`).
-/

namespace ManifestSearch.Properties

open ManifestSearch.Text (Trimmed Trims isBlank trim trims_iff trim_of_trimmed)

variable {raw item value blanks : String} {items values : List String}

/-- A value as it is kept: not empty, and without blanks at its ends. -/
structure IsValue (text : String) : Prop where
  full : text ≠ ""
  trimmed : Trimmed text

instance (text : String) : Decidable (IsValue text) :=
  decidable_of_iff (text ≠ "" ∧ Trimmed text)
    ⟨fun ⟨full, trimmed⟩ => ⟨full, trimmed⟩, fun value => ⟨value.full, value.trimmed⟩⟩

/-- The items of a text, between its commas. There is always one. -/
structure Separates (raw : String) (items : List String) : Prop where
  whole : raw = ",".intercalate items
  occupied : items ≠ []
  free : ∀ item ∈ items, ',' ∉ item.toList

/-- The values among items: each item without the blanks around it, unless it is nothing else. -/
inductive Tidies : List String → List String → Prop where
  | nil : Tidies [] []
  | passed {item : String} {items values : List String} (blank : Trims item "")
      (rest : Tidies items values) : Tidies (item :: items) values
  | kept {item value : String} {items values : List String} (trims : Trims item value)
      (full : value ≠ "") (rest : Tidies items values) : Tidies (item :: items) (value :: values)

theorem tidied_cons (item : String) (items : List String) :
    tidied (item :: items) = if trim item = "" then tidied items else trim item :: tidied items := by
  by_cases blank : trim item = ""
  · simp [tidied, blank]
  · simp [tidied, blank]

theorem tidies_tidied (items : List String) : Tidies items (tidied items) := by
  induction items with
  | nil => exact .nil
  | cons item items ih =>
      rw [tidied_cons]
      split
      · rename_i blank
        exact .passed (trims_iff.mpr blank) ih
      · rename_i full
        exact .kept (trims_iff.mpr rfl) full ih

theorem tidies_iff : Tidies items values ↔ tidied items = values := by
  refine ⟨fun tidies => ?_, fun same => same ▸ tidies_tidied items⟩
  induction tidies with
  | nil => rfl
  | passed blank rest ih => rw [tidied_cons, if_pos (trims_iff.mp blank), ih]
  | kept trims full rest ih =>
      rw [tidied_cons, trims_iff.mp trims, if_neg full, ih]

theorem Tidies.isValue (tidies : Tidies items values) : ∀ value ∈ values, IsValue value := by
  induction tidies with
  | nil => simp
  | passed blank rest ih => exact ih
  | kept trims full rest ih =>
      intro value member
      rcases List.mem_cons.mp member with rfl | member
      · exact ⟨full, trims.trimmed⟩
      · exact ih value member

theorem isValue_of_mem_tidied (member : value ∈ tidied items) : IsValue value :=
  (tidies_tidied items).isValue value member

/-- Blanks in front of values are taken off again. -/
theorem Tidies.of_blanks (blank : ∀ char ∈ blanks.toList, isBlank char)
    (each : ∀ value ∈ values, IsValue value) : Tidies (values.map (blanks ++ ·)) values := by
  induction values with
  | nil => exact .nil
  | cons value values ih =>
      have first := each value (.head values)
      have trims : Trims (blanks ++ value) value :=
        ⟨⟨blanks.toList, [], by simp, by simpa using blank⟩, first.trimmed⟩
      exact .kept trims first.full (ih fun other member => each other (.tail value member))

theorem tidied_of_values (each : ∀ value ∈ values, IsValue value) : tidied values = values :=
  tidies_iff.mp (by simpa using @Tidies.of_blanks "" values (by simp) each)

/-! Items and the text that they make. -/

theorem toList_intercalate (items : List String) :
    (",".intercalate items).toList = Text.joined ',' (items.map String.toList) := by
  induction items with
  | nil => rfl
  | cons item items ih =>
      cases items with
      | nil => rw [String.intercalate_singleton]; rfl
      | cons next items =>
          rw [String.intercalate_cons_cons, String.toList_append, ih]
          simp [Text.joined]

theorem separates_commaItems (raw : String) : Separates raw (Text.commaItems raw) := by
  have chars : (Text.commaItems raw).map String.toList = Text.pieces ',' raw.toList := by
    simp [Text.commaItems, Function.comp_def]
  refine ⟨?_, ?_, ?_⟩
  · rw [← String.toList_inj, toList_intercalate, chars, Text.joined_pieces]
  · simpa [Text.commaItems] using Text.pieces_ne_nil ',' raw.toList
  · intro item member
    have piece : item.toList ∈ Text.pieces ',' raw.toList := chars ▸ List.mem_map_of_mem member
    exact Text.not_mem_of_mem_pieces piece

theorem separates_iff : Separates raw items ↔ Text.commaItems raw = items := by
  refine ⟨fun separates => ?_, fun same => same ▸ separates_commaItems raw⟩
  have free : ∀ piece ∈ items.map String.toList, ',' ∉ piece := by
    simpa using separates.free
  rw [Text.commaItems, separates.whole, toList_intercalate,
    Text.pieces_joined (by simpa using separates.occupied) free]
  simp [Function.comp_def]

theorem append_intercalate (front item : String) (items : List String) :
    front ++ ",".intercalate (item :: items) = ",".intercalate ((front ++ item) :: items) := by
  cases items with
  | nil => simp
  | cons next items => simp [String.intercalate_cons_cons, String.append_assoc]

/-- Blanks behind the commas belong to the items after them. -/
theorem intercalate_blanks (blanks value : String) (values : List String) :
    ("," ++ blanks).intercalate (value :: values) =
      ",".intercalate (value :: values.map (blanks ++ ·)) := by
  induction values generalizing value with
  | nil => simp
  | cons next values ih =>
      rw [String.intercalate_cons_cons, ih, List.map_cons, String.intercalate_cons_cons,
        ← append_intercalate]
      simp only [String.append_assoc]

/-- Values without commas are kept as they are when they are written as one text, with any blanks
behind the commas. -/
theorem tidied_commaItems_intercalate (blank : ∀ char ∈ blanks.toList, isBlank char)
    (each : ∀ value ∈ values, IsValue value ∧ ',' ∉ value.toList) :
    tidied (Text.commaItems (("," ++ blanks).intercalate values)) = values := by
  cases values with
  | nil =>
      rw [String.intercalate_nil]
      decide +kernel
  | cons value values =>
      have first := (each value (.head values)).1
      have others : ∀ other ∈ values, IsValue other := fun other member =>
        (each other (.tail value member)).1
      have noComma : ',' ∉ blanks.toList := fun comma => absurd (blank ',' comma) (by decide)
      have free : ∀ item ∈ value :: values.map (blanks ++ ·), ',' ∉ item.toList := by
        simp only [List.mem_cons, List.mem_map, forall_eq_or_imp, forall_exists_index, and_imp,
          forall_apply_eq_imp_iff₂, String.toList_append, List.mem_append, not_or]
        exact ⟨(each value (.head values)).2, fun other member =>
          ⟨noComma, (each other (.tail value member)).2⟩⟩
      have separates : Separates (("," ++ blanks).intercalate (value :: values))
          (value :: values.map (blanks ++ ·)) :=
        ⟨intercalate_blanks blanks value values, by simp, free⟩
      rw [separates_iff.mp separates]
      exact tidies_iff.mp (.kept (trims_iff.mpr (trim_of_trimmed first.trimmed)) first.full
        (.of_blanks blank others))

end ManifestSearch.Properties
