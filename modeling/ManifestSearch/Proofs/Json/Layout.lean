import ManifestSearch.Proofs.Json.Values

/-!
What a printed text looks like: outside of its strings nothing is blank, and a value is at least as
long as it is deep.
-/

namespace ManifestSearch.Json

variable {rest : List Char} {value : Json}

/-- The characters of a text that are outside of its strings, without the quotes. The text is read
from within a string or from outside of one. -/
def outside : (within : Bool) → List Char → List Char
  | _, [] => []
  | false, '"' :: rest => outside true rest
  | false, char :: rest => char :: outside false rest
  | true, '"' :: rest => outside false rest
  | true, '\\' :: _ :: rest => outside true rest
  | true, _ :: rest => outside true rest

/-- No blank stands between the parts of a text. -/
def Compact (text : List Char) : Prop := ∀ char ∈ outside false text, isBlank char = false

theorem outside_plain {char : Char} (quote : char ≠ '"') (backslash : char ≠ '\\')
    (rest : List Char) : outside true (char :: rest) = outside true rest := by
  rw [outside]
  · exact quote
  · exact fun _ _ same => (backslash same).elim

theorem hexDigit_plain : ∀ value < 16, hexDigit value ≠ '"' ∧ hexDigit value ≠ '\\' := by
  decide

theorem outside_escaped (char : Char) (rest : List Char) :
    outside true (escaped char ++ rest) = outside true rest := by
  unfold escaped
  split
  · rfl
  · rfl
  · rfl
  · rfl
  · rfl
  · rfl
  · rfl
  · split
    · have high := hexDigit_plain (char.toNat / 16) (by omega)
      have low := hexDigit_plain (char.toNat % 16) (by omega)
      simp [outside, outside_plain high.1 high.2, outside_plain low.1 low.2]
    · rename_i quote backslash _ _ _ _ _ _
      exact outside_plain quote backslash rest

theorem outside_quoted (text : String) (rest : List Char) :
    outside false (quoted text ++ rest) = outside false rest := by
  have body (chars : List Char) :
      outside true (chars.flatMap escaped ++ '"' :: rest) = outside false rest := by
    induction chars with
    | nil => rw [List.flatMap_nil, List.nil_append, outside]
    | cons char chars ih => rw [List.flatMap_cons, List.append_assoc, outside_escaped, ih]
  have whole := body text.toList
  simpa [quoted, outside] using whole

theorem compact_quoted (text : String) : Compact (quoted text ++ rest) ↔ Compact rest := by
  rw [Compact, Compact, outside_quoted]

theorem compact_cons {char : Char} (other : char ≠ '"') (shows : isBlank char = false) :
    Compact (char :: rest) ↔ Compact rest := by
  rw [Compact, outside]
  · simp [Compact, shows]
  · exact other

theorem compact_append (text : List Char)
    (shows : ∀ char ∈ text, char ≠ '"' ∧ isBlank char = false) :
    Compact (text ++ rest) ↔ Compact rest := by
  induction text with
  | nil => rfl
  | cons char text ih =>
      obtain ⟨other, shown⟩ := shows char (.head text)
      rw [List.cons_append, compact_cons other shown,
        ih fun later member => shows later (.tail char member)]

theorem Number.print_shows {number : Number} (whole : ∀ double, number ≠ .double double) :
    ∀ char ∈ number.print, char ≠ '"' ∧ isBlank char = false := by
  have digits (value : Nat) : ∀ char ∈ Nat.toDigits 10 value, char ≠ '"' ∧ isBlank char = false := by
    intro char member
    have digit := isDigit_of_mem_toDigits member
    refine ⟨?_, isBlank_of_isDigit digit⟩
    rintro rfl
    contradiction
  cases number with
  | whole value =>
      rw [print, Nat.toList_repr]
      exact digits value.toNat
  | belowZero value =>
      rw [print, Nat.toList_repr]
      intro char member
      rcases List.mem_cons.mp member with rfl | member
      · exact ⟨by decide, rfl⟩
      · exact digits (value.val + 1) char member
  | double double => exact absurd rfl (whole double)

mutual

theorem compact_print (value : Json) (rest : List Char) (exact : value.Exact) :
    Compact (value.print ++ rest) ↔ Compact rest := by
  cases value with
  | null => exact compact_append ['n', 'u', 'l', 'l'] (by simp [isBlank])
  | bool value =>
      cases value with
      | false => exact compact_append ['f', 'a', 'l', 's', 'e'] (by simp [isBlank])
      | true => exact compact_append ['t', 'r', 'u', 'e'] (by simp [isBlank])
  | number number => exact compact_append number.print (Number.print_shows exact.whole)
  | string text => exact compact_quoted text
  | array items =>
      rw [print, List.cons_append, compact_cons (by decide) (by rfl)]
      exact compact_printItems items rest exact
  | object members =>
      rw [print, List.cons_append, compact_cons (by decide) (by rfl)]
      exact compact_printMembers members rest exact.2

theorem compact_printItems (items : List Json) (rest : List Char) (exact : ExactItems items) :
    Compact (printItems items ++ rest) ↔ Compact rest := by
  cases items with
  | nil => exact compact_cons (by decide) (by rfl)
  | cons item items =>
      rw [printItems_cons, List.append_assoc, compact_print item _ exact.1]
      split
      · exact compact_cons (by decide) (by rfl)
      · rw [List.cons_append, compact_cons (by decide) (by rfl)]
        exact compact_printItems items rest exact.2

theorem compact_printMembers (members : List (String × Json)) (rest : List Char)
    (exact : ExactMembers members) : Compact (printMembers members ++ rest) ↔ Compact rest := by
  cases members with
  | nil => exact compact_cons (by decide) (by rfl)
  | cons member members =>
      rw [printMembers_cons, List.append_assoc, compact_quoted, List.cons_append,
        compact_cons (by decide) (by rfl), List.append_assoc, compact_print member.2 _ exact.1]
      split
      · exact compact_cons (by decide) (by rfl)
      · rw [List.cons_append, compact_cons (by decide) (by rfl)]
        exact compact_printMembers members rest exact.2

end

mutual

theorem depth_le_length (value : Json) : value.depth ≤ value.print.length := by
  cases value with
  | array items =>
      rw [depth, print, List.length_cons]
      exact Nat.succ_le_succ (itemsDepth_le_length items)
  | object members =>
      rw [depth, print, List.length_cons]
      exact Nat.succ_le_succ (membersDepth_le_length members)
  | _ => exact Nat.zero_le _

theorem itemsDepth_le_length (items : List Json) : itemsDepth items ≤ (printItems items).length := by
  cases items with
  | nil => exact Nat.zero_le _
  | cons item items =>
      have first := depth_le_length item
      have others := itemsDepth_le_length items
      rw [itemsDepth, printItems_cons, List.length_append]
      grind [itemsDepth]

theorem membersDepth_le_length (members : List (String × Json)) :
    membersDepth members ≤ (printMembers members).length := by
  cases members with
  | nil => exact Nat.zero_le _
  | cons member members =>
      obtain ⟨name, value⟩ := member
      have first := depth_le_length value
      have others := membersDepth_le_length members
      rw [membersDepth, printMembers_cons, List.length_append]
      grind [membersDepth]

end

end ManifestSearch.Json
