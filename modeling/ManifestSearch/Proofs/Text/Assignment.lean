import Mathlib.Data.List.TakeWhile
import ManifestSearch.Text.Assignment

/-!
The parts of a setting. A text is a setting if it has an equals sign with more than blanks before the
first one; then its key is what stands there, without the blanks around it, and its value is all that
follows.
-/

namespace ManifestSearch.Text

variable {text : List Char} {test : Char → Bool} {input : String}

def keyPart (input : String) : String := trim (String.ofList (input.toList.takeWhile (· ≠ '=')))

def valuePart (input : String) : String := String.ofList (input.toList.dropWhile (· ≠ '=')).tail

def IsSetting (input : String) : Prop :=
  '=' ∈ input.toList ∧ ∃ char ∈ input.toList.takeWhile (· ≠ '='), ¬isBlank char

instance (input : String) : Decidable (IsSetting input) :=
  inferInstanceAs (Decidable (_ ∧ ∃ char ∈ _, _))

theorem cutFirst?_eq (separator : Char) (text : List Char) :
    cutFirst? separator text =
      if separator ∈ text then
        some (text.takeWhile (· ≠ separator), (text.dropWhile (· ≠ separator)).tail)
      else none := by
  induction text with
  | nil => rfl
  | cons char rest ih =>
      by_cases same : char = separator
      · simp [cutFirst?, same]
      · by_cases member : separator ∈ rest
        · simp [cutFirst?, same, ih, member]
        · simp [cutFirst?, same, ih, member, Ne.symm same]

theorem dropEnd_eq_nil : dropEnd test text = [] ↔ ∀ char ∈ text, test char := by
  simp [dropEnd, List.dropWhile_eq_nil_iff]

/-- Trimming leaves nothing of blanks alone, and something of every other text. -/
theorem trim_eq_empty (text : String) : trim text = "" ↔ ∀ char ∈ text.toList, isBlank char := by
  have empty : trim text = "" ↔
      ∀ char ∈ text.toList.dropWhile isBlank, isBlank char := by
    rw [trim, ← String.toList_inj, String.toList_ofList]
    exact dropEnd_eq_nil
  rw [empty]
  constructor
  · intro blank char member
    rw [← List.takeWhile_append_dropWhile (p := isBlank) (l := text.toList), List.mem_append] at member
    rcases member with front | back
    · exact List.mem_takeWhile_imp front
    · exact blank char back
  · intro blank char member
    exact blank char (List.dropWhile_sublist isBlank |>.subset member)

theorem assignment?_eq (input : String) :
    assignment? input = if IsSetting input then some (keyPart input, valuePart input) else none := by
  have named : keyPart input = "" ↔ ¬∃ char ∈ input.toList.takeWhile (· ≠ '='), ¬isBlank char := by
    rw [keyPart, trim_eq_empty, String.toList_ofList]
    simp
  rw [assignment?, cutFirst?_eq]
  by_cases equals : '=' ∈ input.toList
  · rw [if_pos equals]
    by_cases blank : keyPart input = ""
    · have refused : ¬IsSetting input := fun setting => named.mp blank setting.2
      rw [if_neg refused]
      exact if_pos blank
    · have setting : IsSetting input := ⟨equals, by simpa [named] using blank⟩
      rw [if_pos setting]
      exact if_neg blank
  · have refused : ¬IsSetting input := fun setting => equals setting.1
    rw [if_neg equals, if_neg refused]

end ManifestSearch.Text
