import ManifestSearch.Proofs.Text.Pieces
import ManifestSearch.Tree.Disk

/-!
Paths as a start and a list of segments. A path that begins at a root and is in the one canonical
spelling is `Spelled` by its start and its segments, and its parts are read off that list: the
segments, the last name, what lies below another path. Entering names one after another adds them
to the list.
-/

namespace ManifestSearch

namespace Path

structure IsSegment (segment : List Char) : Prop where
  full : segment ≠ []
  notDot : segment ≠ ['.']
  notDots : segment ≠ ['.', '.']
  noSlash : '/' ∉ segment

instance (segment : List Char) : Decidable (IsSegment segment) :=
  decidable_of_iff (segment ≠ [] ∧ segment ≠ ['.'] ∧ segment ≠ ['.', '.'] ∧ '/' ∉ segment)
    ⟨fun ⟨full, notDot, notDots, noSlash⟩ => ⟨full, notDot, notDots, noSlash⟩,
      fun segment => ⟨segment.full, segment.notDot, segment.notDots, segment.noSlash⟩⟩

/-- A text that a segment ends does not end in a slash. -/
theorem IsSegment.getLast?_append {segment : List Char} (plain : IsSegment segment)
    (front : List Char) : ∃ char, (front ++ segment).getLast? = some char ∧ char ≠ '/' := by
  refine ⟨segment.getLast plain.full, ?_, fun slash =>
    plain.noSlash (slash ▸ List.getLast_mem plain.full)⟩
  rw [List.getLast?_append, List.getLast?_eq_some_getLast plain.full, Option.some_or]

/-- The text of a path is that of a start at a root and of segments. -/
structure Spelled (path : Path) (start : Start) (segments : List (List Char)) : Prop where
  atRoot : start ≠ .relative
  plain : ∀ segment ∈ segments, IsSegment segment
  text : path.text.toList = spelled start segments

/-- A canonical path that begins at a root: what a search starts from. -/
def Grounded (path : Path) : Prop := path.Canonical ∧ startsAtRoot path.text

instance (path : Path) : Decidable path.Grounded := inferInstanceAs (Decidable (_ ∧ _))

variable {path base : Path} {start : Start} {segments more : List (List Char)}

/-! The steps of settling. -/

theorem foldl_keep_plain {kept : List (List Char)}
    (plain : ∀ segment ∈ segments, IsSegment segment) :
    segments.foldl keep kept = segments.reverse ++ kept := by
  induction segments generalizing kept with
  | nil => rfl
  | cons segment segments ih =>
      have first := plain segment (by simp)
      have kept' : keep kept segment = segment :: kept := by
        simp [keep, first.full, first.notDot, first.notDots]
      rw [List.foldl_cons, kept', ih fun other member => plain other (by simp [member])]
      simp

/-- Pieces that name no step may be left out. -/
theorem foldl_keep_filter_of {test : List Char → Bool} {pieces kept : List (List Char)}
    (passed : ∀ piece, test piece = false → piece = [] ∨ piece = ['.']) :
    (pieces.filter test).foldl keep kept = pieces.foldl keep kept := by
  induction pieces generalizing kept with
  | nil => rfl
  | cons piece pieces ih =>
      by_cases tested : test piece
      · rw [List.filter_cons_of_pos tested, List.foldl_cons, List.foldl_cons, ih]
      · have same : keep kept piece = kept := if_pos (passed piece (by simpa using tested))
        rw [List.filter_cons_of_neg tested, List.foldl_cons, same, ih]

theorem foldl_keep_filter {pieces kept : List (List Char)} :
    (pieces.filter (· ≠ [])).foldl keep kept = pieces.foldl keep kept :=
  foldl_keep_filter_of fun piece empty => .inl (by simpa using empty)

theorem mem_keep {kept : List (List Char)} {piece segment : List Char}
    (member : segment ∈ keep kept piece) :
    segment ∈ kept ∨
      segment = piece ∧ segment ≠ [] ∧ segment ≠ ['.'] ∧ segment ≠ ['.', '.'] := by
  unfold keep at member
  split at member
  · exact .inl member
  · rename_i present
    split at member
    · cases kept with
      | nil => simp at member
      | cons last before =>
          refine .inl ?_
          by_cases drive : isDrive last
          · simpa [drive] using member
          · simp only [drive] at member
            exact List.mem_cons_of_mem last member
    · rename_i notDots
      simp only [not_or] at present
      rcases List.mem_cons.mp member with rfl | member
      · exact .inr ⟨rfl, present.1, present.2, notDots⟩
      · exact .inl member

theorem mem_foldl_keep {pieces kept : List (List Char)} {segment : List Char}
    (member : segment ∈ pieces.foldl keep kept) :
    segment ∈ kept ∨
      segment ∈ pieces ∧ segment ≠ [] ∧ segment ≠ ['.'] ∧ segment ≠ ['.', '.'] := by
  induction pieces generalizing kept with
  | nil => exact .inl member
  | cons piece pieces ih =>
      rcases ih member with member | ⟨member, plain⟩
      · rcases mem_keep member with member | ⟨rfl, plain⟩
        · exact .inl member
        · exact .inr ⟨by simp, plain⟩
      · exact .inr ⟨List.mem_cons_of_mem piece member, plain⟩

theorem settled_plain {pieces : List (List Char)}
    (plain : ∀ segment ∈ pieces.filter (· ≠ []), IsSegment segment) :
    settled pieces = pieces.filter (· ≠ []) := by
  rw [settled, ← foldl_keep_filter, foldl_keep_plain plain]
  simp

theorem isSegment_of_mem_settled {text segment : List Char}
    (member : segment ∈ settled (Text.pieces '/' text)) : IsSegment segment := by
  rw [settled, List.mem_reverse] at member
  rcases mem_foldl_keep member with member | ⟨member, full, notDot, notDots⟩
  · simp at member
  · exact ⟨full, notDot, notDots, Text.not_mem_of_mem_pieces member⟩

theorem mem_of_mem_settled {text segment : List Char} {char : Char}
    (member : segment ∈ settled (Text.pieces '/' text)) (inside : char ∈ segment) :
    char ∈ text := by
  rw [settled, List.mem_reverse] at member
  rcases mem_foldl_keep member with member | ⟨member, -⟩
  · simp at member
  · exact Text.mem_of_mem_pieces member inside

/-! The spelling of a start and segments. -/

theorem joined_head_ne_slash (plain : ∀ segment ∈ segments, IsSegment segment) :
    (Text.joined '/' segments).head? ≠ some '/' := by
  cases segments with
  | nil => simp [Text.joined]
  | cons segment segments =>
      have first := plain segment (by simp)
      cases found : segment with
      | nil => exact absurd found first.full
      | cons char rest =>
          have other : char ≠ '/' := fun same => first.noSlash (by simp [found, same])
          cases segments with
          | nil => simp [Text.joined, other]
          | cons next segments => simp [Text.joined, other]

theorem start_spelled_append (atRoot : start ≠ .relative) (occupied : segments ≠ [])
    (plain : ∀ segment ∈ segments, IsSegment segment) (rest : List Char) :
    Path.start (spelled start segments ++ rest) = start := by
  have head := joined_head_ne_slash plain
  cases found : Text.joined '/' segments with
  | nil =>
      have none := (Text.joined_eq_nil fun segment member => (plain segment member).full).mp found
      contradiction
  | cons char body =>
      have other : char ≠ '/' := by simpa [found] using head
      cases start with
      | relative => contradiction
      | rooted => simp [spelled, found, Path.start, other]
      | network => simp [spelled, found, Path.start, other]

theorem start_spelled (atRoot : start ≠ .relative)
    (plain : ∀ segment ∈ segments, IsSegment segment) :
    Path.start (spelled start segments) = start := by
  by_cases alone : segments = []
  · subst alone
    cases start with
    | relative => contradiction
    | rooted => rfl
    | network => rfl
  · simpa using start_spelled_append atRoot alone plain []

theorem filter_pieces_joined (plain : ∀ segment ∈ segments, IsSegment segment) :
    (Text.pieces '/' (Text.joined '/' segments)).filter (· ≠ []) = segments :=
  Text.filter_pieces_joined (fun segment member => (plain segment member).full)
    fun segment member => (plain segment member).noSlash

theorem filter_pieces_spelled (atRoot : start ≠ .relative)
    (plain : ∀ segment ∈ segments, IsSegment segment) :
    (Text.pieces '/' (spelled start segments)).filter (· ≠ []) = segments := by
  have body := filter_pieces_joined plain
  cases start with
  | relative => contradiction
  | rooted => simpa [spelled, Text.pieces] using body
  | network => simpa [spelled, Text.pieces] using body

theorem clean_spelled (atRoot : start ≠ .relative)
    (plain : ∀ segment ∈ segments, IsSegment segment) :
    clean (spelled start segments) = spelled start segments := by
  have pieces := filter_pieces_spelled atRoot plain
  rw [clean, start_spelled atRoot plain, settled_plain (by rwa [pieces]), pieces]

theorem slashed_of_not_mem {text : List Char} (free : '\\' ∉ text) : slashed text = text := by
  induction text with
  | nil => rfl
  | cons char text ih =>
      simp only [List.mem_cons, not_or] at free
      have rest : slashed text = text := ih free.2
      simp only [slashed, List.map_cons, if_neg (Ne.symm free.1)]
      exact congrArg (char :: ·) rest

theorem not_mem_slashed (text : List Char) : '\\' ∉ slashed text := by
  intro member
  obtain ⟨char, -, same⟩ := List.mem_map.mp member
  by_cases backslash : char = '\\'
  · simp [backslash] at same
  · simp [backslash] at same

theorem not_mem_spelled {char : Char} (other : char ≠ '/') (atRoot : start ≠ .relative)
    (free : ∀ segment ∈ segments, char ∉ segment) : char ∉ spelled start segments := by
  intro member
  have body : char ∈ Text.joined '/' segments := by
    cases start with
    | relative => contradiction
    | rooted => simpa [spelled, other] using member
    | network => simpa [spelled, other] using member
  rcases Text.mem_joined body with same | ⟨segment, inside, member⟩
  · exact other same
  · exact free segment inside member

theorem spelled_append (atRoot : start ≠ .relative) (occupied : segments ≠ [])
    (further : more ≠ []) :
    spelled start (segments ++ more) = spelled start segments ++ '/' :: Text.joined '/' more := by
  cases start with
  | relative => contradiction
  | rooted => simp [spelled, Text.joined_append occupied further]
  | network => simp [spelled, Text.joined_append occupied further]

theorem getLast?_spelled_ne_slash (atRoot : start ≠ .relative) (occupied : segments ≠ [])
    (plain : ∀ segment ∈ segments, IsSegment segment) :
    ∃ char, (spelled start segments).getLast? = some char ∧ char ≠ '/' := by
  obtain ⟨before, last, rfl⟩ : ∃ before last, segments = before ++ [last] :=
    ⟨_, _, (List.dropLast_concat_getLast occupied).symm⟩
  have plainLast := plain last (by simp)
  obtain ⟨char, ending, other⟩ := plainLast.getLast?_append []
  have body : (Text.joined '/' (before ++ [last])).getLast? = some char :=
    (Text.getLast?_joined plainLast.full).trans ending
  refine ⟨char, ?_, other⟩
  cases start with
  | relative => contradiction
  | rooted => simp [spelled, List.getLast?_cons, body]
  | network => simp [spelled, List.getLast?_cons, body]

end Path

end ManifestSearch
