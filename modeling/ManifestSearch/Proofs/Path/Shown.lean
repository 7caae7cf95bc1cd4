import ManifestSearch.Proofs.Path.Above
import ManifestSearch.Proofs.Path.Canonical

/-!
Paths that show their segments. Every canonical path but `.` is the text of its start and of its
segments, whether or not it begins at a root, and names entered from it go on behind those segments.
-/

namespace ManifestSearch.Path

variable {path : Path} {start : Start} {segments : List (List Char)} {names : Location}
  {name : String}

/-- The text of a path is that of a start and of segments. The text `.` shows no segments, so
nothing can go on behind it. -/
structure Shows (path : Path) (start : Start) (segments : List (List Char)) : Prop where
  shown : start ≠ .relative ∨ segments ≠ []
  plain : ∀ segment ∈ segments, IsSegment segment
  text : path.text.toList = spelled start segments

theorem Canonical.shows (canonical : path.Canonical) (notDot : path.text ≠ ".") :
    ∃ start segments, path.Shows start segments ∧ ∀ segment ∈ segments, '\\' ∉ segment := by
  have text := ofText_toList path.text
  rw [canonical] at text
  refine ⟨_, _, ⟨?_, fun _ => isSegment_of_mem_settled, text⟩, fun segment member inside =>
    not_mem_slashed _ (mem_of_mem_settled member inside)⟩
  by_contra hidden
  obtain ⟨relative, none⟩ := not_or.mp hidden
  rw [not_not.mp relative, not_not.mp none] at text
  exact notDot (String.toList_inj.mp text)

namespace Shows

theorem unique {other : Path} (shows : path.Shows start segments)
    (others : other.Shows start segments) : path = other := by
  have same : path.text = other.text := String.toList_inj.mp (shows.text.trans others.text.symm)
  cases path
  cases other
  exact congrArg Path.mk same

theorem text_ne_empty (shows : path.Shows start segments) : path.text ≠ "" := by
  intro empty
  have pieces := filter_pieces_spelled_any shows.plain shows.shown
  have text := shows.text
  rw [empty] at text
  rw [← text] at pieces
  obtain rfl : segments = [] := pieces.symm
  cases start with
  | relative => exact absurd shows.shown (by simp)
  | rooted => cases text
  | network => cases text

theorem segments_eq (shows : path.Shows start segments) :
    path.segments = segments.map String.ofList := by
  rw [Path.segments, shows.text, filter_pieces_spelled_any shows.plain shows.shown]

theorem ofText_text (shows : path.Shows start segments)
    (free : ∀ segment ∈ segments, '\\' ∉ segment) : ofText path.text = path := by
  have noBackslash : '\\' ∉ path.text.toList := by
    intro member
    rw [shows.text] at member
    rcases mem_spelled member with slash | dot | ⟨segment, inSegments, inside⟩
    · contradiction
    · contradiction
    · exact free segment inSegments inside
  rw [ofText, slashed_of_not_mem noBackslash, shows.text, clean_spelled_any shows.plain,
    ← shows.text, String.ofList_toList]

/-- One more segment goes behind a slash, which a drive alone brings along. -/
theorem spelled_relative_concat {last : List Char} (plain : ∀ segment ∈ segments, IsSegment segment)
    (occupied : segments ≠ []) :
    spelled .relative (segments ++ [last]) =
      if (spelled .relative segments).getLast? = some '/' then spelled .relative segments ++ last
      else spelled .relative segments ++ '/' :: last := by
  match segments, plain, occupied with
  | [only], plain, _ =>
      have alone : only.getLast? ≠ some '/' := fun ending =>
        (plain only (by simp)).noSlash (List.mem_of_getLast? ending)
      by_cases drive : isDrive only
      · simp [spelled, Text.joined, drive]
      · simp [spelled, Text.joined, drive, alone]
  | first :: second :: rest, plain, occupied =>
      have ending := getLast?_joined_ne_slash plain
      have whole : spelled .relative (first :: second :: rest) =
          Text.joined '/' (first :: second :: rest) := rfl
      rw [whole, if_neg ending, ← Text.joined_concat occupied]
      rfl

theorem enter (shows : path.Shows start segments) (plain : IsSegment name.toList) :
    Shows ⟨RawText.join path.text name⟩ start (segments ++ [name.toList]) := by
  by_cases atRoot : start = .relative
  · subst atRoot
    have occupied : segments ≠ [] := shows.shown.resolve_left (by simp)
    refine ⟨.inr (by simp), ?_, ?_⟩
    · intro segment member
      rcases List.mem_append.mp member with member | member
      · exact shows.plain segment member
      · rwa [List.mem_singleton.mp member]
    · rw [spelled_relative_concat shows.plain occupied, ← shows.text,
        RawText.join_of_isSegment shows.text_ne_empty plain]
      split
      · simp
      · simp
  · have entered := Spelled.enter ⟨atRoot, shows.plain, shows.text⟩ plain
    exact ⟨.inl atRoot, entered.plain, entered.text⟩

theorem descend (shows : path.Shows start segments)
    (plain : ∀ name ∈ names, IsSegment name.toList) :
    Shows ⟨RawText.descend path.text names⟩ start (segments ++ segmentsOf names) := by
  induction names generalizing path segments with
  | nil => simpa [RawText.descend, segmentsOf] using shows
  | cons name names ih =>
      have entered := shows.enter (plain name (by simp))
      have further := ih entered fun other member => plain other (List.mem_cons_of_mem name member)
      simpa [RawText.descend, segmentsOf] using further

theorem segments_descend (shows : path.Shows start segments)
    (plain : ∀ name ∈ names, IsSegment name.toList) :
    Path.segments ⟨RawText.descend path.text names⟩ = path.segments ++ names := by
  rw [(shows.descend plain).segments_eq, shows.segments_eq]
  simp [segmentsOf, Function.comp_def]

theorem ofText_descend (shows : path.Shows start segments)
    (free : ∀ segment ∈ segments, '\\' ∉ segment) (plain : ∀ name ∈ names, IsSegment name.toList)
    (tame : ∀ name ∈ names, '\\' ∉ name.toList) :
    ofText (RawText.descend path.text names) = ⟨RawText.descend path.text names⟩ := by
  refine (shows.descend plain).ofText_text fun segment member => ?_
  rcases List.mem_append.mp member with member | member
  · exact free segment member
  · obtain ⟨name, inNames, rfl⟩ := List.mem_map.mp member
    exact tame name inNames

end Shows

end ManifestSearch.Path
