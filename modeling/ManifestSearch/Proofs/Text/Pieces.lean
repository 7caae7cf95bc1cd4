import ManifestSearch.Text.Pieces

/-!
Pieces of a text and the text of pieces. On pieces that hold no separator, `joined` loses nothing:
`pieces` gives them back. The cuts at the first and at the last separator, and at a known start,
are described by the texts that they put back together.
-/

namespace ManifestSearch.Text

variable {separator : Char} {text front rest start : List Char}

theorem pieces_of_not_mem (free : separator ∉ text) : pieces separator text = [text] := by
  induction text with
  | nil => rfl
  | cons char rest ih =>
      simp only [List.mem_cons, not_or] at free
      simp only [pieces, if_neg (Ne.symm free.1), ih free.2]

theorem pieces_append (front rest : List Char) :
    pieces separator (front ++ separator :: rest) =
      pieces separator front ++ pieces separator rest := by
  induction front with
  | nil => simp [pieces]
  | cons char front ih =>
      by_cases same : char = separator
      · simp only [List.cons_append, pieces, if_pos same, ih]
      · simp only [List.cons_append, pieces, if_neg same, ih]
        cases found : pieces separator front with
        | nil => exact absurd found (pieces_ne_nil separator front)
        | cons piece others => rfl

theorem pieces_append_of_not_mem {piece : List Char} {others : List (List Char)}
    (free : separator ∉ front) (cut : pieces separator rest = piece :: others) :
    pieces separator (front ++ rest) = (front ++ piece) :: others := by
  induction front with
  | nil => exact cut
  | cons char front ih =>
      simp only [List.mem_cons, not_or] at free
      simp only [List.cons_append, pieces, if_neg (Ne.symm free.1), ih free.2]

/-- The last piece of a front goes on with the first piece of what follows it. -/
theorem pieces_behind (separator : Char) (front : List Char) :
    ∃ before last, ∀ rest piece others, pieces separator rest = piece :: others →
      pieces separator (front ++ rest) = before ++ (last ++ piece) :: others := by
  induction front with
  | nil => exact ⟨[], [], fun rest piece others cut => cut⟩
  | cons char front ih =>
      obtain ⟨before, last, behind⟩ := ih
      by_cases same : char = separator
      · refine ⟨[] :: before, last, fun rest piece others cut => ?_⟩
        simp only [List.cons_append, pieces, if_pos same, behind rest piece others cut]
      · cases before with
        | nil =>
            refine ⟨[], char :: last, fun rest piece others cut => ?_⟩
            simp [pieces, same, behind rest piece others cut]
        | cons first before =>
            refine ⟨(char :: first) :: before, last, fun rest piece others cut => ?_⟩
            simp [pieces, same, behind rest piece others cut]

theorem not_mem_of_mem_pieces {piece : List Char} (member : piece ∈ pieces separator text) :
    separator ∉ piece := by
  induction text generalizing piece with
  | nil => simp_all [pieces]
  | cons char rest ih =>
      by_cases same : char = separator
      · simp only [pieces, if_pos same, List.mem_cons] at member
        rcases member with rfl | member
        · simp
        · exact ih member
      · simp only [pieces, if_neg same] at member
        cases found : pieces separator rest with
        | nil => exact absurd found (pieces_ne_nil separator rest)
        | cons first others =>
            rw [found] at ih member
            rcases List.mem_cons.mp member with rfl | member
            · have free := ih List.mem_cons_self
              simp [free, Ne.symm same]
            · exact ih (List.mem_cons_of_mem first member)

theorem mem_of_mem_pieces {piece : List Char} {char : Char}
    (member : piece ∈ pieces separator text) (inside : char ∈ piece) : char ∈ text := by
  induction text generalizing piece with
  | nil => simp_all [pieces]
  | cons first rest ih =>
      by_cases same : first = separator
      · simp only [pieces, if_pos same, List.mem_cons] at member
        rcases member with rfl | member
        · simp at inside
        · exact List.mem_cons_of_mem first (ih member inside)
      · simp only [pieces, if_neg same] at member
        cases found : pieces separator rest with
        | nil => exact absurd found (pieces_ne_nil separator rest)
        | cons head others =>
            rw [found] at ih member
            rcases List.mem_cons.mp member with rfl | member
            · rcases List.mem_cons.mp inside with rfl | inside
              · exact List.mem_cons_self
              · exact List.mem_cons_of_mem first (ih List.mem_cons_self inside)
            · exact List.mem_cons_of_mem first (ih (List.mem_cons_of_mem head member) inside)

theorem joined_cons {piece : List Char} {others : List (List Char)} (more : others ≠ []) :
    joined separator (piece :: others) = piece ++ separator :: joined separator others := by
  cases others with
  | nil => contradiction
  | cons next others => rfl

theorem joined_append {before after : List (List Char)} (some : before ≠ []) (more : after ≠ []) :
    joined separator (before ++ after) =
      joined separator before ++ separator :: joined separator after := by
  induction before with
  | nil => contradiction
  | cons piece before ih =>
      cases before with
      | nil => exact joined_cons more
      | cons next before =>
          have whole : next :: before ++ after ≠ [] := by simp
          have inner : next :: before ≠ [] := by simp
          rw [List.cons_append, joined_cons whole, ih inner, joined_cons inner, List.append_assoc,
            List.cons_append]

theorem joined_concat {before : List (List Char)} (some : before ≠ []) (piece : List Char) :
    joined separator (before ++ [piece]) = joined separator before ++ separator :: piece :=
  joined_append some (by simp)

theorem pieces_joined {parts : List (List Char)} (some : parts ≠ [])
    (free : ∀ part ∈ parts, separator ∉ part) : pieces separator (joined separator parts) = parts := by
  induction parts with
  | nil => contradiction
  | cons part parts ih =>
      have first := pieces_of_not_mem (free part (by simp))
      cases parts with
      | nil => exact first
      | cons next parts =>
          have others := ih (by simp) fun other member => free other (List.mem_cons_of_mem part member)
          rw [joined_cons (by simp), pieces_append, first, others]
          rfl

theorem filter_pieces_joined {parts : List (List Char)} (full : ∀ part ∈ parts, part ≠ [])
    (free : ∀ part ∈ parts, separator ∉ part) :
    (pieces separator (joined separator parts)).filter (· ≠ []) = parts := by
  by_cases none : parts = []
  · subst none
    rfl
  · rw [pieces_joined none free]
    exact List.filter_eq_self.mpr fun part member => by simp [full part member]

theorem joined_eq_nil {parts : List (List Char)} (full : ∀ part ∈ parts, part ≠ []) :
    joined separator parts = [] ↔ parts = [] := by
  cases parts with
  | nil => simp [joined]
  | cons part parts =>
      have first := full part (by simp)
      cases parts with
      | nil => simpa [joined] using first
      | cons next parts => simp [joined]

theorem length_le_joined {parts : List (List Char)} (full : ∀ part ∈ parts, part ≠ []) : parts.length ≤ (joined separator parts).length := by
  induction parts with
  | nil => simp
  | cons part parts ih =>
      have first := List.length_pos_iff.mpr (full part (by simp))
      have others := ih fun other member => full other (List.mem_cons_of_mem part member)
      cases parts with
      | nil => exact first
      | cons next parts =>
          simp only [joined, List.length_append, List.length_cons] at others ⊢
          omega

theorem mem_joined {parts : List (List Char)} {char : Char}
    (inside : char ∈ joined separator parts) : char = separator ∨ ∃ part ∈ parts, char ∈ part := by
  induction parts with
  | nil => simp [joined] at inside
  | cons part parts ih =>
      by_cases none : parts = []
      · subst none
        exact .inr ⟨part, by simp, inside⟩
      · rw [joined_cons none, List.mem_append, List.mem_cons] at inside
        rcases inside with inside | same | inside
        · exact .inr ⟨part, by simp, inside⟩
        · exact .inl same
        · rcases ih inside with same | ⟨other, member, inside⟩
          · exact .inl same
          · exact .inr ⟨other, List.mem_cons_of_mem part member, inside⟩

theorem getLast?_joined {parts : List (List Char)} {last : List Char} (full : last ≠ []) :
    (joined separator (parts ++ [last])).getLast? = last.getLast? := by
  by_cases none : parts = []
  · subst none
    rfl
  · rw [joined_concat none, List.getLast?_append, List.getLast?_cons]
    cases ending : last.getLast? with
    | none => exact absurd (List.getLast?_eq_none_iff.mp ending) full
    | some char => rfl

theorem cutLast?_of_not_mem (free : separator ∉ text) : cutLast? separator text = none := by
  induction text with
  | nil => rfl
  | cons char rest ih =>
      simp only [List.mem_cons, not_or] at free
      simp only [cutLast?, ih free.2, if_neg (Ne.symm free.1)]

theorem cutLast?_append (front : List Char) (free : separator ∉ rest) :
    cutLast? separator (front ++ separator :: rest) = some (front, rest) := by
  induction front with
  | nil => simp [cutLast?, cutLast?_of_not_mem free]
  | cons char front ih => simp only [List.cons_append, cutLast?, ih]

theorem cutLast?_eq_some (cut : cutLast? separator text = some (front, rest)) :
    text = front ++ separator :: rest := by
  induction text generalizing front with
  | nil => simp [cutLast?] at cut
  | cons char text ih =>
      rw [cutLast?] at cut
      split at cut
      · rename_i later
        cases cut
        rw [ih later]
        rfl
      · split at cut
        · rename_i same
          cases cut
          rw [same]
          rfl
        · contradiction

theorem cutLast?_eq_none_iff : cutLast? separator text = none ↔ separator ∉ text := by
  refine ⟨fun uncut => ?_, cutLast?_of_not_mem⟩
  induction text with
  | nil => simp
  | cons char text ih =>
      rw [cutLast?] at uncut
      split at uncut
      · contradiction
      · rename_i later
        split at uncut
        · contradiction
        · rename_i other
          simp [ih later, Ne.symm other]

theorem not_mem_of_cutLast? (cut : cutLast? separator text = some (front, rest)) :
    separator ∉ rest := by
  induction text generalizing front with
  | nil => simp [cutLast?] at cut
  | cons char text ih =>
      rw [cutLast?] at cut
      split at cut
      · rename_i later
        cases cut
        exact ih later
      · rename_i uncut
        split at cut
        · cases cut
          exact cutLast?_eq_none_iff.mp uncut
        · contradiction

theorem after?_eq_some_iff : after? start text = some rest ↔ text = start ++ rest := by
  induction start generalizing text with
  | nil => simp [after?, eq_comm]
  | cons wanted start ih =>
      cases text with
      | nil => simp [after?]
      | cons char text =>
          by_cases same : wanted = char
          · simp [after?, same, ih]
          · simp [after?, same, Ne.symm same]

theorem dropEnd_of_getLast? {test : Char → Bool} {char : Char}
    (ending : text.getLast? = some char) (kept : test char = false) : dropEnd test text = text := by
  obtain ⟨before, rfl⟩ := List.getLast?_eq_some_iff.mp ending
  simp [dropEnd, kept]

theorem dropEnd_prefix (test : Char → Bool) (text : List Char) : dropEnd test text <+: text := by
  rw [← List.reverse_suffix, dropEnd, List.reverse_reverse]
  exact List.dropWhile_suffix test

end ManifestSearch.Text
