import Mathlib.Data.Option.Basic
import ManifestSearch.Json.Printer
import ManifestSearch.Json.Reader

/-!
Strings and whole numbers read back from their text. A string is closed by its own quote; a number is
not closed at all, so what follows it must not go on with it (`Stops`).
-/

namespace ManifestSearch.Json

variable {checked : Bool} {text rest digits : List Char} {value : Nat} {number : Number}

/-! Strings. -/

theorem hexValue?_hexDigit : ∀ value < 16, hexValue? (hexDigit value) = some value := by
  decide

theorem unit?_hexDigits (value : Nat) (below : value < 0x100) :
    unit? '0' '0' (hexDigit (value / 16)) (hexDigit (value % 16)) = some value := by
  have high := hexValue?_hexDigit (value / 16) (by omega)
  have low := hexValue?_hexDigit (value % 16) (by omega)
  have zero : hexValue? '0' = some 0 := by decide
  simp only [unit?, List.mapM_cons, List.mapM_nil, high, low, zero]
  simp [Nat.div_add_mod']

/-- A character reads back from its escaped form. -/
theorem stringBody?_escaped (checked : Bool) (char : Char) (rest : List Char) :
    stringBody? checked (escaped char ++ rest) =
      (stringBody? checked rest).map fun body => (char :: body.1, body.2) := by
  unfold escaped
  split
  · rfl
  · rfl
  · rfl
  · rfl
  · rfl
  · rfl
  · rfl
  · split
    · rename_i control
      have unit := unit?_hexDigits char.toNat (by omega)
      have leading : isLeading char.toNat = false := by simp [isLeading]; omega
      have trailing : isTrailing char.toNat = false := by simp [isTrailing]; omega
      simp [stringBody?, unit, leading, trailing]
    · rename_i quote backslash _ _ _ _ _ control
      rw [List.singleton_append, stringBody?, if_neg control]
      · exact quote
      · exact fun _ _ _ _ _ same => (backslash same).elim
      · exact fun _ _ same => (backslash same).elim

theorem stringBody?_print (checked : Bool) (text rest : List Char) :
    stringBody? checked (text.flatMap escaped ++ '"' :: rest) = some (text, rest) := by
  induction text with
  | nil => rfl
  | cons char text ih =>
      rw [List.flatMap_cons, List.append_assoc, stringBody?_escaped, ih]
      rfl

theorem string?_quoted (checked : Bool) (text : String) (rest : List Char) :
    string? checked (quoted text ++ rest) = some (text, rest) := by
  have body := stringBody?_print checked text.toList rest
  simp [quoted, string?, body]

/-! Numbers. -/

/-- What follows does not go on with a number. -/
def Stops (rest : List Char) : Prop :=
  ∀ char ∈ rest.head?, char.isDigit = false ∧ char ≠ '.' ∧ char ≠ 'e' ∧ char ≠ 'E'

theorem digit?_of_isDigit {char : Char} (digit : char.isDigit) :
    digit? char = some (char.toNat - '0'.toNat) := if_pos digit

theorem le_ofDigitChars (digits : List Char) (value : Nat) :
    value ≤ Nat.ofDigitChars 10 digits value := by
  rw [Nat.ofDigitChars_eq_ofDigitChars_zero]
  calc
    value = 1 * value := (Nat.one_mul value).symm
    _ ≤ 10 ^ digits.length * value := Nat.mul_le_mul_right value (Nat.one_le_pow _ 10 (by decide))
    _ ≤ 10 ^ digits.length * value + Nat.ofDigitChars 10 digits 0 := Nat.le_add_right _ _

theorem wholeDigits_append (digits : List Char) (value : Nat) (all : ∀ char ∈ digits, char.isDigit)
    (stops : Stops rest) (fits : Nat.ofDigitChars 10 digits value < Nat.pow 2 64) :
    wholeDigits value (digits ++ rest) = (Nat.ofDigitChars 10 digits value, 0, rest) := by
  induction digits generalizing value with
  | nil =>
      cases rest with
      | nil => rfl
      | cons char rest =>
          have last : digit? char = none := by
            rw [digit?, (stops char rfl).1]
            rfl
          simp [wholeDigits, last]
  | cons char digits ih =>
      rw [Nat.ofDigitChars_cons, Nat.mul_comm] at fits ⊢
      have below := Nat.lt_of_le_of_lt (le_ofDigitChars digits _) fits
      rw [List.cons_append, wholeDigits, digit?_of_isDigit (all char (.head digits))]
      simp only [if_pos below]
      exact ih _ (fun other member => all other (.tail char member)) fits

/-- The digits of a number start with a zero only if it is zero. -/
theorem toDigits_start (value : Nat) :
    ∃ first more, Nat.toDigits 10 value = first :: more ∧ (first = '0' → value = 0) := by
  induction value using Nat.strongRecOn with
  | ind value ih =>
      rw [Nat.toDigits_eq_if (by decide)]
      split
      · exact ⟨value.digitChar, [], rfl, Nat.digitChar_eq_zero.mp⟩
      · rename_i large
        obtain ⟨first, more, digits, zero⟩ := ih (value / 10) (by omega)
        refine ⟨first, more ++ [(value % 10).digitChar], by rw [digits]; rfl, fun start => ?_⟩
        have small := zero start
        omega

theorem isDigit_of_mem_toDigits {char : Char} (member : char ∈ Nat.toDigits 10 value) :
    char.isDigit :=
  Nat.isDigit_of_mem_toDigits (by decide) (by decide) member

theorem isDigit_of_toDigits {first : Char} {more : List Char}
    (digits : Nat.toDigits 10 value = first :: more) : first.isDigit := by
  have member : first ∈ Nat.toDigits 10 value := digits ▸ .head more
  exact isDigit_of_mem_toDigits member

theorem unsigned?_toDigits (checked negative : Bool) (fits : value < Nat.pow 2 64)
    (stops : Stops rest) :
    unsigned? checked negative (Nat.toDigits 10 value ++ rest) =
      some (if checked then wholeNumber negative value else .whole 0, rest) := by
  have whole : wholeDigits 0 (Nat.toDigits 10 value ++ rest) = (value, 0, rest) := by
    have read := wholeDigits_append (Nat.toDigits 10 value) 0 (fun _ => isDigit_of_mem_toDigits)
      stops (by rwa [Nat.ofDigitChars_ten_toDigits])
    rwa [Nat.ofDigitChars_ten_toDigits] at read
  obtain ⟨first, more, digits, zero⟩ := toDigits_start value
  have first_digit := isDigit_of_toDigits digits
  have ended : rest = [] ∨ ∃ next others, rest = next :: others ∧ next.isDigit = false ∧
      next ≠ '.' ∧ ¬(next = 'e' ∨ next = 'E') := by
    cases rest with
    | nil => exact .inl rfl
    | cons next others =>
        obtain ⟨digit, point, small, large⟩ := stops next rfl
        exact .inr ⟨next, others, rfl, digit, point, by simp [small, large]⟩
  rw [digits, List.cons_append] at whole ⊢
  simp only [unsigned?, whole, List.head?_cons, Option.bind_some, digit?_of_isDigit first_digit]
  by_cases start : first = '0'
  · obtain ⟨rfl, rfl⟩ : first = '0' ∧ more = [] := by
      rw [zero start] at digits
      simpa [eq_comm] using digits
    rcases ended with rfl | ⟨next, others, rfl, digit, point, mark⟩
    · simp [unsigned?.ending]
      cases checked <;> rfl
    · simp [unsigned?.ending, digit, point, mark]
      cases checked <;> rfl
  · rcases ended with rfl | ⟨next, others, rfl, digit, point, mark⟩
    · simp [unsigned?.ending, start]
      cases checked <;> rfl
    · simp [unsigned?.ending, start, point, mark]
      cases checked <;> rfl

/-- A whole number reads back from its digits; unchecked, only its text is taken. -/
theorem number?_print (checked : Bool) (whole : ∀ double, number ≠ .double double) (stops : Stops rest) :
    number? checked (number.print ++ rest) =
      some (if checked then number else .whole 0, rest) := by
  cases number with
  | whole value =>
      have read := unsigned?_toDigits checked false value.toNat_lt stops
      have same : wholeNumber false value.toNat = .whole value := by simp [wholeNumber]
      obtain ⟨first, more, digits, -⟩ := toDigits_start value.toNat
      have digit := isDigit_of_toDigits digits
      have dash : first ≠ '-' := by
        rintro rfl
        contradiction
      rw [same, digits, List.cons_append] at read
      rw [Number.print, Nat.toList_repr, digits, List.cons_append, number?]
      · exact read
      · exact fun _ starts => dash (List.cons.inj starts).1
  | belowZero value =>
      have bound : value.val + 1 ≤ Nat.pow 2 63 := value.isLt
      have fits : value.val + 1 < Nat.pow 2 64 := Nat.lt_of_le_of_lt bound (by decide)
      have read := unsigned?_toDigits checked true fits stops
      have same : wholeNumber true (value.val + 1) = .belowZero value := by
        rw [wholeNumber, if_pos rfl, dif_pos ⟨value.val.succ_pos, bound⟩]
        rfl
      rw [Number.print, Nat.toList_repr, List.cons_append, number?, read, same]
  | double double => exact absurd rfl (whole double)

end ManifestSearch.Json
