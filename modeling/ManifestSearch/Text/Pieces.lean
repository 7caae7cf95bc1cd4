/-!
Cutting a text at a separator and putting it together again. Everything here works on the
characters of a text; `pieces` and `joined` are the two sides of one another.
-/

namespace ManifestSearch.Text

/-- What lies between the occurrences of a separator. There is always at least one piece, and
a piece is empty where two separators touch. -/
def pieces (separator : Char) : List Char → List (List Char)
  | [] => [[]]
  | char :: rest =>
      if char = separator then [] :: pieces separator rest
      else match pieces separator rest with
        | [] => [[char]]
        | piece :: others => (char :: piece) :: others

/-- The pieces in order with one separator between neighbours. -/
def joined (separator : Char) : List (List Char) → List Char
  | [] => []
  | [piece] => piece
  | piece :: others => piece ++ separator :: joined separator others

def cutFirst? (separator : Char) : List Char → Option (List Char × List Char)
  | [] => none
  | char :: rest =>
      if char = separator then some ([], rest)
      else (cutFirst? separator rest).map fun cut => (char :: cut.1, cut.2)

def cutLast? (separator : Char) : List Char → Option (List Char × List Char)
  | [] => none
  | char :: rest =>
      match cutLast? separator rest with
      | some (before, after) => some (char :: before, after)
      | none => if char = separator then some ([], rest) else none

def dropEnd (test : Char → Bool) (text : List Char) : List Char :=
  (text.reverse.dropWhile test).reverse

/-- What follows `start` in a text that begins with it. -/
def after? : List Char → List Char → Option (List Char)
  | [], text => some text
  | _ :: _, [] => none
  | wanted :: start, char :: rest => if wanted = char then after? start rest else none

/-- Keeps the first of equal entries. -/
def distinct {α : Type} [DecidableEq α] : List α → List α
  | [] => []
  | entry :: rest => entry :: (distinct rest).filter (· ≠ entry)

theorem pieces_ne_nil (separator : Char) (text : List Char) : pieces separator text ≠ [] := by
  cases text with
  | nil => simp [pieces]
  | cons char rest =>
      simp only [pieces]
      split
      · simp
      · split <;> simp

theorem joined_pieces (separator : Char) (text : List Char) :
    joined separator (pieces separator text) = text := by
  induction text with
  | nil => rfl
  | cons char rest ih =>
      cases found : pieces separator rest with
      | nil => exact absurd found (pieces_ne_nil separator rest)
      | cons piece others =>
          rw [found] at ih
          by_cases same : char = separator
          · simp [pieces, same, found, joined, ih]
          · cases others with
            | nil => simp_all [pieces, joined]
            | cons next others => simp [pieces, same, found, joined] at ih ⊢; exact ih

end ManifestSearch.Text
