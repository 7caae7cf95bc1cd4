import ManifestSearch.Proofs.Path.Canonical

/-!
A path and the one above it. What lies below a path lies below the path above it too, behind one
more name; and a text that does not go up leads from each of them to the segments it settles to,
behind those of the path that it starts from.
-/

namespace ManifestSearch.Path

variable {path base parent : Path} {segments front pieces kept : List (List Char)}
  {last : List Char} {more : String}

theorem relativeTo?_eq_some_iff {rest : String} : path.relativeTo? base = some rest ↔
    path.text.toList = base.trimmed ++ '/' :: rest.toList ∨
      rest = "" ∧ path.text.toList = base.trimmed := by
  constructor
  · intro found
    rw [relativeTo?] at found
    split at found
    · rename_i cut
      cases found
      exact .inr ⟨rfl, by simpa using Text.after?_eq_some_iff.mp cut⟩
    · rename_i cut
      cases found
      exact .inl (by simpa using Text.after?_eq_some_iff.mp cut)
    · contradiction
  · rintro (text | ⟨rfl, text⟩)
    · simpa using relativeTo?_of_append text
    · have cut : Text.after? base.trimmed path.text.toList = some [] :=
        Text.after?_eq_some_iff.mpr (by simpa using text)
      rw [relativeTo?, cut]

theorem Spelled.relativeTo?_self (spelling : path.Spelled .rooted segments) :
    path.relativeTo? path = some "" := by
  apply relativeTo?_eq_some_iff.mpr
  by_cases top : segments = []
  · subst top
    exact .inl (by rw [spelling.trimmed_of_nil, spelling.text]; rfl)
  · exact .inr ⟨rfl, (spelling.trimmed_eq top).symm⟩

/-- A path below another one is the other itself or has more text behind a slash. -/
theorem Spelled.relativeTo?_iff {rest : String} (spelling : base.Spelled .rooted segments)
    (rooted : ManifestSearch.startsAtRoot path.text) (other : path ≠ base) :
    path.relativeTo? base = some rest ↔
      path.text.toList = base.trimmed ++ '/' :: rest.toList := by
  rw [relativeTo?_eq_some_iff, or_iff_left]
  rintro ⟨-, text⟩
  by_cases top : segments = []
  · subst top
    rw [spelling.trimmed_of_nil] at text
    simp [ManifestSearch.startsAtRoot, text] at rooted
  · rw [spelling.trimmed_eq top] at text
    cases path
    cases base
    exact other (congrArg Path.mk (String.toList_inj.mp text))

/-- What lies below a path lies below the path above it, behind one more name. -/
theorem Spelled.relativeTo?_above {rest : String}
    (spelling : base.Spelled .rooted (front ++ [last])) (above : parent.Spelled .rooted front)
    (rooted : ManifestSearch.startsAtRoot path.text)
    (other : path ≠ base) : path.relativeTo? base = some rest ↔
      ∃ longer, path.relativeTo? parent = some longer ∧
        longer.toList = last ++ '/' :: rest.toList := by
  have name : base.trimmed = parent.trimmed ++ '/' :: last := by
    rw [spelling.trimmed_eq (by simp)]
    exact above.text_below spelling (.inl rfl) (by simp)
  rw [spelling.relativeTo?_iff rooted other, name, List.append_assoc, List.cons_append]
  constructor
  · intro text
    exact ⟨_, relativeTo?_of_append text, String.toList_ofList⟩
  · rintro ⟨longer, found, behind⟩
    rcases relativeTo?_eq_some_iff.mp found with text | ⟨rfl, -⟩
    · rw [text, behind]
    · simp at behind

theorem Spelled.mem_text {char : Char} (spelling : path.Spelled .rooted segments)
    {segment : List Char} (member : segment ∈ segments) (inside : char ∈ segment) :
    char ∈ path.text.toList := by
  rw [← filter_pieces_spelled spelling.atRoot spelling.plain, ← spelling.text] at member
  exact Text.mem_of_mem_pieces (List.mem_filter.mp member).1 inside

theorem Spelled.above (spelling : base.Spelled .rooted segments)
    (above : base.parent? = some parent) :
    ∃ front last, segments = front ++ [last] ∧ parent.Spelled .rooted front := by
  rcases List.eq_nil_or_concat segments with rfl | ⟨front, last, rfl⟩
  · rw [Path.parent?, spelling.trimmed_of_nil] at above
    contradiction
  · rw [List.concat_eq_append] at spelling ⊢
    have plainLast := spelling.plain last (by simp)
    have plainFront : ∀ segment ∈ front, IsSegment segment := fun segment member =>
      spelling.plain segment (by simp [member])
    refine ⟨front, last, rfl, by simp, plainFront, ?_⟩
    have whole := spelling.trimmed_eq (by simp)
    rw [spelling.text] at whole
    by_cases top : front = []
    · subst top
      have cut : Text.cutLast? '/' base.trimmed = some ([], last) := by
        rw [whole]
        exact Text.cutLast?_append [] plainLast.noSlash
      rw [Path.parent?, cut] at above
      cases above
      rfl
    · have cut : Text.cutLast? '/' base.trimmed = some (spelled .rooted front, last) := by
        rw [whole, spelled_append (by simp) top (by simp)]
        exact Text.cutLast?_append _ plainLast.noSlash
      rw [Path.parent?, cut] at above
      cases above
      exact String.toList_ofList

/-- A path is above what is one name further; only above a name in a network root is the root. -/
theorem Spelled.parent?_eq {start : Start} (spelling : base.Spelled start segments)
    (longer : path.Spelled start (segments ++ [last])) (single : start = .rooted ∨ segments ≠ []) :
    path.parent? = some base := by
  have noSlash := (longer.plain last (by simp)).noSlash
  have below := spelling.text_below longer single (by simp)
  have cut : Text.cutLast? '/' path.trimmed = some (base.trimmed, last) := by
    rw [longer.trimmed_eq (by simp), below]
    exact Text.cutLast?_append base.trimmed noSlash
  rw [Path.parent?, cut]
  by_cases top : segments = []
  · subst top
    obtain rfl : start = .rooted := single.resolve_right (by simp)
    rw [spelling.trimmed_of_nil]
    exact congrArg some (spelling.unique ⟨by simp, by simp, rfl⟩).symm
  · have head : base.text.toList.head? = some '/' := by
      simpa [ManifestSearch.startsAtRoot] using spelling.startsAtRoot
    obtain ⟨rest, text⟩ := List.head?_eq_some_iff.mp head
    rw [spelling.trimmed_eq top, text]
    refine congrArg (fun text => some (Path.mk text)) ?_
    rw [← text, String.ofList_toList]

theorem keep_append (notDots : last ≠ ['.', '.']) (front : List (List Char)) :
    keep (front ++ kept) last = keep front last ++ kept := by
  simp only [keep, if_neg notDots]
  split <;> simp

/-- Where nothing goes up, what was kept before stays. -/
theorem foldl_keep_of_noDots (noDots : ['.', '.'] ∉ pieces) :
    pieces.foldl keep kept = (settled pieces).reverse ++ kept := by
  have general (front : List (List Char)) :
      pieces.foldl keep (front ++ kept) = pieces.foldl keep front ++ kept := by
    induction pieces generalizing front with
    | nil => rfl
    | cons piece pieces ih =>
        simp only [List.mem_cons, not_or] at noDots
        rw [List.foldl_cons, List.foldl_cons, keep_append (Ne.symm noDots.1), ih noDots.2]
  rw [settled, List.reverse_reverse]
  exact general []

/-- Joining goes on from the segments of a path. -/
theorem Spelled.join_text (spelling : base.Spelled .rooted segments)
    (relative : (slashed more.toList).head? ≠ some '/') :
    (base.join more).Spelled .rooted
      ((Text.pieces '/' (slashed more.toList)).foldl keep segments.reverse).reverse := by
  simp only [Path.join, spelling.text]
  generalize slashed more.toList = text at relative
  by_cases top : segments = []
  · subst top
    have started : Path.start ('/' :: text) = .rooted := by
      cases text with
      | nil => rfl
      | cons char text =>
          have other : char ≠ '/' := by simpa using relative
          simp [Path.start, other]
    have spelledRoot := @spelled_clean ('/' :: text) (by simp [started])
    rw [started, Text.pieces, if_pos rfl] at spelledRoot
    exact spelledRoot
  · obtain ⟨char, ending, other⟩ := getLast?_spelled_ne_slash spelling.atRoot top spelling.plain
    rw [ending, if_neg (by simpa using other), List.append_assoc, List.singleton_append]
    have started := start_spelled_append spelling.atRoot top spelling.plain ('/' :: text)
    have further := @spelled_clean (spelled .rooted segments ++ '/' :: text) (by simp [started])
    have stood : (Text.pieces '/' (spelled .rooted segments)).foldl keep [] = segments.reverse := by
      rw [← foldl_keep_filter, filter_pieces_spelled spelling.atRoot spelling.plain,
        foldl_keep_plain spelling.plain, List.append_nil]
    rw [started, Text.pieces_append, settled, List.foldl_append, stood] at further
    exact further

theorem getLast?_joined_ne_slash (plain : ∀ segment ∈ segments, IsSegment segment) :
    (Text.joined '/' segments).getLast? ≠ some '/' := by
  rcases List.eq_nil_or_concat segments with rfl | ⟨before, last, rfl⟩
  · simp [Text.joined]
  · rw [List.concat_eq_append] at plain ⊢
    have plainLast := plain last (by simp)
    rw [Text.getLast?_joined plainLast.full]
    exact fun ending => plainLast.noSlash (List.mem_of_getLast? ending)

end ManifestSearch.Path
