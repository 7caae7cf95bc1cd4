import Mathlib.Data.List.DropRight
import ManifestSearch.Proofs.Text.Assignment
import ManifestSearch.Proofs.Text.Pieces

/-!
What trimming leaves. It is the one part of a text with nothing but blanks in front of it and behind
it, and none at its own ends (`trims_iff`). So trimming a trimmed text changes nothing, and blanks put
around it are taken off again. The key of a setting is the trimmed text in front of its first equals
sign (`assignment?_eq_some`).
-/

namespace ManifestSearch.Text

variable {text part input key raw : String} {whole front back rest : List Char}
  {separator : Char} {test : Char → Bool}

/-- No blank stands at either end. -/
structure Trimmed (text : String) : Prop where
  front : ∀ char ∈ text.toList.head?, ¬isBlank char
  back : ∀ char ∈ text.toList.getLast?, ¬isBlank char

theorem trimmed_iff : Trimmed text ↔
    text.toList.head?.all (!isBlank ·) ∧ text.toList.getLast?.all (!isBlank ·) := by
  simp only [Option.all_eq_true, Bool.not_eq_true']
  exact ⟨fun trimmed => ⟨by simpa using trimmed.front, by simpa using trimmed.back⟩,
    fun ⟨front, back⟩ => ⟨by simpa using front, by simpa using back⟩⟩

instance (text : String) : Decidable (Trimmed text) := decidable_of_iff _ trimmed_iff.symm

/-- A text is a trimmed part with blanks around it. -/
structure Trims (text part : String) : Prop where
  cut : ∃ front back, text.toList = front ++ part.toList ++ back ∧
    ∀ char ∈ front ++ back, isBlank char
  trimmed : Trimmed part

theorem dropEnd_append (passed : ∀ char ∈ back, test char) (front : List Char) :
    dropEnd test (front ++ back) = dropEnd test front := by
  have passed : ∀ char ∈ back.reverse, test char := by simpa using passed
  rw [dropEnd, List.reverse_append, List.dropWhile_append_of_pos passed, dropEnd]

theorem trim_eq_of_trims (trims : Trims text part) : trim text = part := by
  obtain ⟨⟨front, back, whole, blank⟩, trimmed⟩ := trims
  have before : ∀ char ∈ front, isBlank char := fun char member => blank char (by simp [member])
  have behind : ∀ char ∈ back, isBlank char := fun char member => blank char (by simp [member])
  rw [trim, whole, List.append_assoc, List.dropWhile_append_of_pos before,
    ← String.toList_inj, String.toList_ofList]
  cases found : part.toList with
  | nil =>
      rw [List.nil_append, List.dropWhile_eq_nil_iff.mpr behind]
      rfl
  | cons char rest =>
      have shows : ¬isBlank char := trimmed.front char (by simp [found])
      rw [List.cons_append, List.dropWhile_cons_of_neg shows, ← List.cons_append,
        dropEnd_append behind]
      have ending := List.getLast?_eq_some_getLast (List.cons_ne_nil char rest)
      have last := trimmed.back _ (by rw [found]; exact ending)
      exact dropEnd_of_getLast? ending (by simpa using last)

theorem trims_trim (text : String) : Trims text (trim text) := by
  have left := List.takeWhile_append_dropWhile (p := isBlank) (l := text.toList)
  have right := List.rdropWhile_append_rtakeWhile (p := isBlank) (l := text.toList.dropWhile isBlank)
  have kept : (trim text).toList = (text.toList.dropWhile isBlank).rdropWhile isBlank :=
    String.toList_ofList
  refine ⟨⟨text.toList.takeWhile isBlank, (text.toList.dropWhile isBlank).rtakeWhile isBlank, ?_, ?_⟩,
    ?_, ?_⟩
  · rw [kept, List.append_assoc, right, left]
  · intro char member
    rcases List.mem_append.mp member with member | member
    · exact List.mem_takeWhile_imp member
    · exact List.mem_rtakeWhile_imp member
  · intro char first
    rw [kept] at first
    obtain ⟨rest, starts⟩ := List.rdropWhile_prefix isBlank (text.toList.dropWhile isBlank)
    have stays : (text.toList.dropWhile isBlank).head? = some char := by
      rw [← starts, List.head?_append, first]
      rfl
    have shown := List.head?_dropWhile_not isBlank text.toList
    rw [stays] at shown
    simpa using shown
  · intro char last
    rw [kept] at last
    have occupied : (text.toList.dropWhile isBlank).rdropWhile isBlank ≠ [] := by
      intro empty
      simp [empty] at last
    have shown := List.rdropWhile_last_not isBlank _ occupied
    rw [List.getLast?_eq_some_getLast occupied, Option.mem_some_iff] at last
    rwa [last] at shown

/-- The trimmed text is the part between the blanks at the ends. -/
theorem trims_iff : Trims text part ↔ trim text = part :=
  ⟨trim_eq_of_trims, fun trimmed => trimmed ▸ trims_trim text⟩

theorem trim_of_trimmed (trimmed : Trimmed text) : trim text = text :=
  trim_eq_of_trims ⟨⟨[], [], by simp, by simp⟩, trimmed⟩

/-! The parts of a setting. -/

theorem cutFirst?_eq_some :
    cutFirst? separator whole = some (front, rest) ↔
      whole = front ++ separator :: rest ∧ separator ∉ front := by
  induction whole generalizing front with
  | nil => simp [cutFirst?]
  | cons char others ih =>
      by_cases same : char = separator
      · cases front with
        | nil => simp [cutFirst?, same, eq_comm]
        | cons first front =>
            refine iff_of_false (by simp [cutFirst?, same]) fun found => ?_
            obtain ⟨whole, free⟩ := found
            have first_same : char = first := (List.cons.inj whole).1
            exact free (first_same ▸ same ▸ List.mem_cons_self)
      · rw [cutFirst?, if_neg same, Option.map_eq_some_iff]
        constructor
        · intro found
          obtain ⟨⟨before, after⟩, cut, whole⟩ := found
          cases whole
          obtain ⟨rfl, free⟩ := ih.mp cut
          exact ⟨rfl, by simp [free, Ne.symm same]⟩
        · intro found
          obtain ⟨whole, free⟩ := found
          cases front with
          | nil => exact absurd (List.cons.inj whole).1 same
          | cons first front =>
              obtain ⟨rfl, rfl⟩ := List.cons.inj whole
              exact ⟨(front, rest), ih.mpr ⟨rfl, fun member => free (.tail _ member)⟩, rfl⟩

/-- A setting is cut at its first equals sign, in front of which there is a key. -/
theorem assignment?_eq_some :
    assignment? input = some (key, raw) ↔
      ∃ front : String, input = front ++ "=" ++ raw ∧ '=' ∉ front.toList ∧ Trims front key ∧
        key ≠ "" := by
  rw [assignment?]
  constructor
  · intro assigned
    split at assigned
    · contradiction
    · rename_i front rest cut
      obtain ⟨whole, free⟩ := cutFirst?_eq_some.mp cut
      dsimp only at assigned
      split at assigned
      · contradiction
      · rename_i named
        cases assigned
        refine ⟨String.ofList front, ?_, by simpa using free, trims_iff.mpr rfl, named⟩
        rw [← String.toList_inj, whole]
        simp
  · intro cut
    obtain ⟨front, rfl, free, trims, named⟩ := cut
    have cut : cutFirst? '=' (front ++ "=" ++ raw).toList = some (front.toList, raw.toList) :=
      cutFirst?_eq_some.mpr ⟨by simp, free⟩
    simp only [cut, String.ofList_toList, trims_iff.mp trims, if_neg named]

theorem assignment?_eq_none :
    assignment? input = none ↔
      '=' ∉ input.toList ∨ ∀ char ∈ input.toList.takeWhile (· ≠ '='), isBlank char := by
  rw [assignment?_eq]
  by_cases setting : IsSetting input
  · obtain ⟨equals, char, member, shows⟩ := setting
    have setting : IsSetting input := ⟨equals, char, member, shows⟩
    rw [if_pos setting]
    refine iff_of_false (by simp) fun either => ?_
    rcases either with absent | blank
    · exact absent equals
    · exact shows (blank char member)
  · rw [if_neg setting]
    refine iff_of_true rfl ?_
    by_contra named
    obtain ⟨equals, some⟩ := not_or.mp named
    exact setting ⟨not_not.mp equals, by simpa using some⟩

end ManifestSearch.Text
