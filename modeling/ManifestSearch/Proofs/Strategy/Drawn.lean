import ManifestSearch.Proofs.Path.Above
import ManifestSearch.Proofs.Path.Canonical
import ManifestSearch.Proofs.TempFolder.Affixes
import ManifestSearch.Proofs.Walk.Respelling

/-!
Paths of drawn names. Two names that differ in their random part give two paths, in any folder and
for any convention, also where the name that a convention gives has slashes or dots in it: the piece
with the random part names a step, and nothing behind it goes up again.
-/

namespace ManifestSearch

variable {convention : Convention} {directory front : String} {tag other : Tag}

namespace Path

variable {piece : List Char} {before others : List (List Char)}

/-- A piece with a character that is no dot stays, between what the pieces on both sides of it settle
to. -/
theorem settled_between {char : Char} (inside : char ∈ piece) (noDot : char ≠ '.')
    (noDots : ['.', '.'] ∉ others) :
    settled (before ++ piece :: others) = settled before ++ piece :: settled others := by
  have differs (dots : List Char) (free : char ∉ dots) : piece ≠ dots :=
    fun same => free (same ▸ inside)
  have kept : keep (before.foldl keep []) piece = piece :: before.foldl keep [] := by
    simp [keep, differs [] (by simp), differs ['.'] (by simp [noDot]),
      differs ['.', '.'] (by simp [noDot])]
  rw [settled, List.foldl_append, List.foldl_cons, kept, foldl_keep_of_noDots noDots]
  simp [settled]

end Path

/-- What stands before the random part ends in a dash, and what stands behind it has no dot but the
one it may start with. -/
theorem Convention.affixes_shape (convention : Convention) :
    (∃ front, convention.affixes.1.toList = front ++ ['-']) ∧
      ['.', '.'] ∉ (Text.pieces '/' (Path.slashed convention.affixes.2.toList)).tail := by
  rcases convention.affixes_cases with ⟨stem, ending, -, free, -, halves⟩ | ⟨-, halves⟩
  · have noDot : '.' ∉ Path.slashed ending.toList := by
      simp only [Path.slashed, List.mem_map, not_exists, not_and]
      intro char inside
      split
      · decide
      · rintro rfl
        exact free inside
    have whole : Path.slashed ("." ++ ending).toList = ['.'] ++ Path.slashed ending.toList := by
      rw [String.toList_append, Path.slashed_append]
      rfl
    rw [halves]
    refine ⟨⟨stem.toList, String.toList_append⟩, ?_⟩
    rw [whole]
    cases pieces : Text.pieces '/' (Path.slashed ending.toList) with
    | nil => exact absurd pieces (Text.pieces_ne_nil _ _)
    | cons piece others =>
        rw [Text.pieces_append_of_not_mem (by decide) pieces]
        intro member
        have inside : ['.', '.'] ∈ Text.pieces '/' (Path.slashed ending.toList) :=
          pieces ▸ List.mem_cons_of_mem piece member
        exact noDot (Text.mem_of_mem_pieces inside (by simp))
  · rw [halves]
    exact ⟨⟨convention.fileName.toList, String.toList_append⟩, by simp [Path.slashed, Text.pieces]⟩

theorem RawText.join_append (occupied : front ≠ "") (directory rest : String) :
    join directory (front ++ rest) = join directory front ++ rest := by
  have starts : startsAtRoot (front ++ rest) = startsAtRoot front := by
    have some : front.toList ≠ [] := fun none => occupied (String.toList_inj.mp none)
    simp only [startsAtRoot, String.toList_append, List.head?_append_of_ne_nil _ some]
  simp only [join, starts]
  split
  · rfl
  · split
    · exact String.append_assoc.symm
    · simp only [String.append_assoc]

theorem RawText.suffix_join (directory text : String) : text.toList <:+ (join directory text).toList := by
  rw [join]
  split
  · exact List.suffix_rfl
  · split
    · exact String.toList_append ▸ List.suffix_append _ _
    · exact String.toList_append ▸ List.suffix_append _ _

namespace TempFolder

theorem place_toList (convention : Convention) (directory ending : String) :
    ∃ above, ∀ tag, (place directory convention.affixes.1 ending tag).toList =
      above ++ '-' :: (tag.text.toList ++ ending.toList) := by
  obtain ⟨front, dash⟩ := convention.affixes_shape.1
  have occupied : convention.affixes.1 ≠ "" := by
    intro none
    simp [none] at dash
  obtain ⟨above, whole⟩ := RawText.suffix_join directory convention.affixes.1
  refine ⟨above ++ front, fun tag => ?_⟩
  rw [place, String.append_assoc, RawText.join_append occupied, String.toList_append, ← whole, dash]
  simp

/-- Different random parts make different paths. -/
theorem ofText_place_inj
    (same : Path.ofText (place directory convention.affixes.1 convention.affixes.2 tag) =
      Path.ofText (place directory convention.affixes.1 convention.affixes.2 other)) :
    tag.text = other.text := by
  obtain ⟨above, whole⟩ := place_toList convention directory convention.affixes.2
  obtain ⟨before, last, behind⟩ := Text.pieces_behind '/' (Path.slashed above)
  have noDots := convention.affixes_shape.2
  cases back : Text.pieces '/' (Path.slashed convention.affixes.2.toList) with
  | nil => exact absurd back (Text.pieces_ne_nil _ _)
  | cons piece others =>
      rw [back, List.tail_cons] at noDots
      -- The path settles to what the random part is put between.
      have settles (tag : Tag) : Path.settled (Text.pieces '/' (Path.slashed
          (place directory convention.affixes.1 convention.affixes.2 tag).toList)) =
            Path.settled before ++ (last ++ '-' :: (tag.text.toList ++ piece)) ::
              Path.settled others := by
        obtain ⟨noSlash, noBackslash⟩ := tag.isPlainText
        have named : Text.pieces '/' (('-' :: tag.text.toList) ++
            Path.slashed convention.affixes.2.toList) = ('-' :: tag.text.toList ++ piece) :: others :=
          Text.pieces_append_of_not_mem (by simpa using noSlash) back
        have drawn : Path.slashed ('-' :: tag.text.toList) = '-' :: tag.text.toList :=
          Path.slashed_of_not_mem (by simpa using noBackslash)
        rw [whole, ← List.cons_append, Path.slashed_append, Path.slashed_append, drawn,
          behind _ _ _ named]
        exact Path.settled_between (List.mem_append_right last List.mem_cons_self) (by decide) noDots
      obtain ⟨-, kept, first, second⟩ := Path.ofText_inj.mp same
      have both := first.settled_eq.trans second.settled_eq.symm
      rw [settles, settles] at both
      exact String.toList_inj.mp (by simpa using both)

end TempFolder

end ManifestSearch
