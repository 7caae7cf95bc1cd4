import Mathlib.Data.List.Induction
import ManifestSearch.Proofs.Tree.Below

/-!
The canonical spelling. A text is spelled anew from two things: how it starts, which is the number
of its slashes in front, and the segments that its pieces settle to (`Settles`). The spelling loses
neither, so two texts are spelled alike exactly if they agree in both, and a canonical spelling is
left as it is. The paths that the operations on paths build are spelled without a backslash, and
what is joined to one of them is canonical again.
-/

namespace ManifestSearch.Path

variable {path parent : Path} {start other : Start} {segments more pieces kept : List (List Char)}
  {piece last : List Char} {front back : List Char}

/-! How a text starts. -/

/-- The root of a text by the number of slashes that it starts with. -/
def rootOf (text : List Char) : Start :=
  match (text.takeWhile (· = '/')).length with
  | 0 => .relative
  | 2 => .network
  | _ => .rooted

theorem start_eq_rootOf (text : List Char) : Path.start text = rootOf text := by
  have stops {rest : List Char} (other : ∀ tail, rest = '/' :: tail → False) :
      rest.takeWhile (· = '/') = [] := by
    cases rest with
    | nil => rfl
    | cons char tail =>
        have differs : char ≠ '/' := fun same => other tail (same ▸ rfl)
        simp [differs]
  unfold Path.start
  split
  · simp [rootOf]
  · rename_i other
    simp [rootOf, stops other]
  · rename_i other
    simp [rootOf, stops other]
  · rename_i other
    simp [rootOf, stops other]

/-! The segments that pieces settle to. -/

/-- Which segments are left of some pieces. Pieces that name no step are dropped, and `..` takes
back the segment in front of it, unless there is none or it is a drive. -/
inductive Settles : List (List Char) → List (List Char) → Prop where
  | none : Settles [] []
  | drop {pieces kept : List (List Char)} {piece : List Char} (settles : Settles pieces kept)
      (idle : piece = [] ∨ piece = ['.']) : Settles (pieces ++ [piece]) kept
  | back {pieces kept : List (List Char)} {last : List Char}
      (settles : Settles pieces (kept ++ [last])) (noDrive : isDrive last = false) :
      Settles (pieces ++ [['.', '.']]) kept
  | atTop {pieces : List (List Char)} (settles : Settles pieces []) :
      Settles (pieces ++ [['.', '.']]) []
  | atDrive {pieces kept : List (List Char)} {last : List Char}
      (settles : Settles pieces (kept ++ [last])) (drive : isDrive last) :
      Settles (pieces ++ [['.', '.']]) (kept ++ [last])
  | name {pieces kept : List (List Char)} {piece : List Char} (settles : Settles pieces kept)
      (full : piece ≠ []) (notDot : piece ≠ ['.']) (notDots : piece ≠ ['.', '.']) :
      Settles (pieces ++ [piece]) (kept ++ [piece])

theorem settled_concat (pieces : List (List Char)) (piece : List Char) :
    settled (pieces ++ [piece]) = (keep (settled pieces).reverse piece).reverse := by
  simp [settled]

theorem Settles.settled_eq (settles : Settles pieces kept) : settled pieces = kept := by
  induction settles with
  | none => rfl
  | drop settles idle ih => simp [settled_concat, ih, keep, idle]
  | back settles noDrive ih => simp [settled_concat, ih, keep, noDrive]
  | atTop settles ih => simp [settled_concat, ih, keep]
  | atDrive settles drive ih => simp [settled_concat, ih, keep, drive]
  | name settles full notDot notDots ih => simp [settled_concat, ih, keep, full, notDot, notDots]

theorem settles_settled (pieces : List (List Char)) : Settles pieces (settled pieces) := by
  induction pieces using List.reverseRecOn with
  | nil => exact .none
  | append_singleton pieces piece ih =>
      rw [settled_concat]
      by_cases idle : piece = [] ∨ piece = ['.']
      · rw [show keep (settled pieces).reverse piece = (settled pieces).reverse from if_pos idle,
          List.reverse_reverse]
        exact .drop ih idle
      · have named := not_or.mp idle
        by_cases dots : piece = ['.', '.']
        · subst dots
          rcases List.eq_nil_or_concat (settled pieces) with empty | ⟨before, last, whole⟩
          · rw [empty] at ih ⊢
            exact .atTop ih
          · rw [List.concat_eq_append] at whole
            rw [whole] at ih ⊢
            cases drive : isDrive last with
            | false => simpa [keep, drive] using Settles.back ih drive
            | true => simpa [keep, drive] using Settles.atDrive ih drive
        · have kept' : keep (settled pieces).reverse piece = piece :: (settled pieces).reverse := by
            simp [keep, named.1, named.2, dots]
          rw [kept', List.reverse_cons, List.reverse_reverse]
          exact .name ih named.1 named.2 dots

theorem settles_iff : Settles pieces kept ↔ settled pieces = kept :=
  ⟨Settles.settled_eq, fun same => same ▸ settles_settled pieces⟩

/-! Spelling and reading back. -/

theorem pieces_of_plain (plain : IsSegment piece) : Text.pieces '/' piece = [piece] :=
  Text.pieces_of_not_mem plain.noSlash

theorem filter_pieces_spelled_any (plain : ∀ segment ∈ segments, IsSegment segment)
    (shown : start ≠ .relative ∨ segments ≠ []) :
    (Text.pieces '/' (spelled start segments)).filter (· ≠ []) = segments := by
  cases start with
  | rooted => exact filter_pieces_spelled (by simp) plain
  | network => exact filter_pieces_spelled (by simp) plain
  | relative =>
      match segments, plain, shown with
      | [], _, shown => simp at shown
      | [only], plain, _ =>
          have alone := plain only (by simp)
          simp only [spelled]
          split
          · rw [show only ++ ['/'] = only ++ '/' :: [] from rfl, Text.pieces_append,
              pieces_of_plain alone]
            simp [Text.pieces, alone.full]
          · rw [pieces_of_plain alone]
            simp [alone.full]
      | _ :: _ :: _, plain, _ => exact filter_pieces_joined plain

theorem settled_spelled (plain : ∀ segment ∈ segments, IsSegment segment) :
    settled (Text.pieces '/' (spelled start segments)) = segments := by
  by_cases shown : start ≠ .relative ∨ segments ≠ []
  · have same := filter_pieces_spelled_any plain shown
    rw [settled_plain (by rwa [same]), same]
  · obtain ⟨rfl, rfl⟩ : start = .relative ∧ segments = [] := by simpa using shown
    rfl

theorem start_spelled_any (plain : ∀ segment ∈ segments, IsSegment segment) :
    Path.start (spelled start segments) = start := by
  cases start with
  | relative => exact start_spelled_relative plain
  | rooted => exact start_spelled (by simp) plain
  | network => exact start_spelled (by simp) plain

/-- The spelling loses neither the start nor the segments. -/
theorem spelled_inj (plain : ∀ segment ∈ segments, IsSegment segment)
    (plainMore : ∀ segment ∈ more, IsSegment segment) :
    spelled start segments = spelled other more ↔ start = other ∧ segments = more := by
  constructor
  · intro same
    constructor
    · rw [← @start_spelled_any start _ plain, same, start_spelled_any plainMore]
    · rw [← @settled_spelled start _ plain, same, settled_spelled plainMore]
  · rintro ⟨rfl, rfl⟩
    rfl

theorem clean_spelled_any (plain : ∀ segment ∈ segments, IsSegment segment) :
    clean (spelled start segments) = spelled start segments := by
  rw [clean, start_spelled_any plain, settled_spelled plain]

theorem clean_clean (text : List Char) : clean (clean text) = clean text :=
  clean_spelled_any fun _ => isSegment_of_mem_settled

theorem clean_inj {text rest : List Char} : clean text = clean rest ↔
    Path.start text = Path.start rest ∧
      settled (Text.pieces '/' text) = settled (Text.pieces '/' rest) :=
  spelled_inj (fun _ => isSegment_of_mem_settled) fun _ => isSegment_of_mem_settled

theorem mem_spelled {char : Char} (member : char ∈ spelled start segments) :
    char = '/' ∨ char = '.' ∨ ∃ segment ∈ segments, char ∈ segment := by
  have inJoined (inside : char ∈ Text.joined '/' segments) :
      char = '/' ∨ char = '.' ∨ ∃ segment ∈ segments, char ∈ segment :=
    (Text.mem_joined inside).imp_right .inr
  cases start with
  | rooted => exact (List.mem_cons.mp member).elim .inl inJoined
  | network =>
      rcases List.mem_cons.mp member with slash | member
      · exact .inl slash
      · exact (List.mem_cons.mp member).elim .inl inJoined
  | relative =>
      match segments, member, inJoined with
      | [], member, _ => exact .inr (.inl (List.mem_singleton.mp member))
      | [only], member, _ =>
          simp only [spelled] at member
          split at member
          · rcases List.mem_append.mp member with member | slash
            · exact .inr (.inr ⟨only, by simp, member⟩)
            · exact .inl (List.mem_singleton.mp slash)
          · exact .inr (.inr ⟨only, by simp, member⟩)
      | _ :: _ :: _, member, inJoined => exact inJoined member

theorem not_mem_clean {char : Char} {text : List Char} (noSlash : char ≠ '/') (noDot : char ≠ '.')
    (free : char ∉ text) : char ∉ clean text := by
  intro member
  rcases mem_spelled member with slash | dot | ⟨segment, inSettled, inside⟩
  · exact noSlash slash
  · exact noDot dot
  · exact free (mem_of_mem_settled inSettled inside)

theorem canonical_clean {text : List Char} (free : '\\' ∉ text) :
    Canonical ⟨String.ofList (clean text)⟩ := by
  rw [Canonical, ofText, String.toList_ofList,
    slashed_of_not_mem (not_mem_clean (by decide) (by decide) free), clean_clean]

/-! Slashes in a canonical spelling. -/

theorem not_doubled_joined (plain : ∀ segment ∈ segments, IsSegment segment) :
    Text.joined '/' segments ≠ front ++ '/' :: '/' :: back := by
  intro doubled
  have occupied : segments ≠ [] := by
    rintro rfl
    simp [Text.joined] at doubled
  have whole := Text.pieces_joined occupied fun segment member => (plain segment member).noSlash
  rw [doubled, Text.pieces_append, Text.pieces, if_pos rfl] at whole
  have empty : [] ∈ segments := by simp [← whole]
  exact (plain [] empty).full rfl

/-- Two slashes stand together only at the front, where they are a network root. -/
theorem network_of_doubled (plain : ∀ segment ∈ segments, IsSegment segment)
    (doubled : spelled start segments = front ++ '/' :: '/' :: back) :
    front = [] ∧ start = .network := by
  have head := joined_head_ne_slash plain
  cases start with
  | rooted =>
      cases front with
      | nil =>
          have body : Text.joined '/' segments = '/' :: back := (List.cons.inj doubled).2
          simp [body] at head
      | cons char front => exact absurd (List.cons.inj doubled).2 (not_doubled_joined plain)
  | network =>
      rcases front with _ | ⟨_, _ | ⟨_, front⟩⟩
      · exact ⟨rfl, rfl⟩
      · have body : Text.joined '/' segments = '/' :: back :=
          (List.cons.inj (List.cons.inj doubled).2).2
        simp [body] at head
      · exact absurd (List.cons.inj (List.cons.inj doubled).2).2 (not_doubled_joined plain)
  | relative =>
      have three : 3 ≤ (Text.pieces '/' (spelled .relative segments)).length := by
        have first := List.length_pos_iff.mpr (Text.pieces_ne_nil '/' front)
        have last := List.length_pos_iff.mpr (Text.pieces_ne_nil '/' back)
        rw [doubled, Text.pieces_append, Text.pieces, if_pos rfl, List.length_append,
          List.length_cons]
        omega
      rcases segments with _ | ⟨only, _ | ⟨next, rest⟩⟩
      · simp [spelled, Text.pieces] at three
      · have alone := pieces_of_plain (plain only (by simp))
        simp only [spelled] at three
        split at three
        · rw [show only ++ ['/'] = only ++ '/' :: [] from rfl, Text.pieces_append, alone] at three
          simp [Text.pieces] at three
        · simp [alone] at three
      · exact absurd doubled (not_doubled_joined plain)

/-- A slash at the end is a root, or stands behind a drive alone. -/
theorem root_or_drive_of_trailing (plain : ∀ segment ∈ segments, IsSegment segment)
    (trailing : (spelled start segments).getLast? = some '/') :
    segments = [] ∨ start = .relative ∧ ∃ drive, segments = [drive] ∧ isDrive drive := by
  have atRoot (rooted : start ≠ .relative) : segments = [] := by
    cases segments with
    | nil => rfl
    | cons first rest =>
        obtain ⟨char, ending, differs⟩ := getLast?_spelled_ne_slash rooted (by simp) plain
        rw [trailing] at ending
        cases ending
        contradiction
  cases start with
  | rooted => exact .inl (atRoot (by simp))
  | network => exact .inl (atRoot (by simp))
  | relative =>
      rcases List.eq_nil_or_concat segments with empty | ⟨before, last, whole⟩
      · exact .inl empty
      · rw [List.concat_eq_append] at whole
        subst whole
        have plainLast := plain last (by simp)
        have kept : last.getLast? ≠ some '/' := fun same =>
          plainLast.noSlash (List.mem_of_getLast? same)
        match before, trailing with
        | [], trailing =>
            simp only [List.nil_append, spelled] at trailing
            split at trailing
            · rename_i drive
              exact .inr ⟨rfl, last, rfl, drive⟩
            · exact absurd trailing kept
        | first :: rest, trailing =>
            have joined : spelled .relative (first :: rest ++ [last]) =
                Text.joined '/' (first :: rest ++ [last]) := by
              cases rest <;> rfl
            rw [joined, Text.getLast?_joined plainLast.full] at trailing
            exact absurd trailing kept

/-! The paths that are built. -/

theorem ofText_toList (text : String) : (ofText text).text.toList =
    spelled (Path.start (slashed text.toList)) (settled (Text.pieces '/' (slashed text.toList))) :=
  String.toList_ofList

theorem isSegment_of_mem_segments {text name : String} (shown : (ofText text).text ≠ ".")
    (member : name ∈ (ofText text).segments) : IsSegment name.toList := by
  have plain : ∀ segment ∈ settled (Text.pieces '/' (slashed text.toList)), IsSegment segment :=
    fun segment => isSegment_of_mem_settled
  have dotless : Path.start (slashed text.toList) ≠ .relative ∨
      settled (Text.pieces '/' (slashed text.toList)) ≠ [] := by
    by_contra absent
    obtain ⟨relative, none⟩ : Path.start (slashed text.toList) = .relative ∧
        settled (Text.pieces '/' (slashed text.toList)) = [] := by simpa using absent
    have dot := ofText_toList text
    rw [relative, none] at dot
    exact shown (String.toList_inj.mp dot)
  rw [Path.segments, ofText_toList, filter_pieces_spelled_any plain dotless] at member
  obtain ⟨segment, inSettled, rfl⟩ := List.mem_map.mp member
  rw [String.toList_ofList]
  exact plain segment inSettled

theorem ofText_inj {text rest : String} : ofText text = ofText rest ↔
    rootOf (slashed text.toList) = rootOf (slashed rest.toList) ∧
      ∃ kept, Settles (Text.pieces '/' (slashed text.toList)) kept ∧
        Settles (Text.pieces '/' (slashed rest.toList)) kept := by
  have texts : ofText text = ofText rest ↔
      clean (slashed text.toList) = clean (slashed rest.toList) := by
    rw [ofText, ofText, Path.mk.injEq, String.ofList_inj]
  rw [texts, clean_inj, start_eq_rootOf, start_eq_rootOf]
  simp only [settles_iff, exists_eq_left']
  rw [@eq_comm _ (settled (Text.pieces '/' (slashed rest.toList)))]

/-- The paths that are built from texts, by joining and by going up. -/
inductive Made : Path → Prop where
  | ofText (text : String) : Made (ofText text)
  | join {path : Path} (made : Made path) (text : String) : Made (path.join text)
  | parent {path parent : Path} (made : Made path) (above : path.parent? = some parent) :
      Made parent

theorem not_mem_of_parent? {char : Char} (differs : char ≠ '/') (free : char ∉ path.text.toList)
    (above : path.parent? = some parent) : char ∉ parent.text.toList := by
  have trimmed : path.trimmed ⊆ path.text.toList := by
    intro other member
    exact List.mem_reverse.mp ((List.dropWhile_sublist _).subset (List.mem_reverse.mp member))
  rw [parent?] at above
  split at above
  · contradiction
  · cases above
    simpa using differs
  · rename_i before rest _ cut
    cases above
    intro member
    rw [String.toList_ofList] at member
    have whole := Text.cutLast?_eq_some cut
    exact free (trimmed (by rw [whole]; exact List.mem_append_left _ member))

theorem join_toList (path : Path) (text : String) : ∃ between ⊆ ['/'], path.join text =
    ⟨String.ofList (clean (path.text.toList ++ between ++ slashed text.toList))⟩ := by
  refine ⟨if path.text.toList.getLast? = some '/' then [] else ['/'], ?_, rfl⟩
  split <;> simp

theorem join_canonical (free : '\\' ∉ path.text.toList) (text : String) :
    (path.join text).Canonical := by
  obtain ⟨between, slash, whole⟩ := join_toList path text
  rw [whole]
  apply canonical_clean
  simp only [List.mem_append, not_or]
  exact ⟨⟨free, fun member => by simpa using slash member⟩, not_mem_slashed _⟩

theorem Made.noBackslash (made : Made path) : '\\' ∉ path.text.toList := by
  induction made with
  | ofText text =>
      rw [Path.ofText, String.toList_ofList]
      exact not_mem_clean (by decide) (by decide) (not_mem_slashed _)
  | @join path made text ih =>
      obtain ⟨between, slash, whole⟩ := join_toList path text
      rw [whole, String.toList_ofList]
      apply not_mem_clean (by decide) (by decide)
      simp only [List.mem_append, not_or]
      exact ⟨⟨ih, fun member => by simpa using slash member⟩, not_mem_slashed _⟩
  | parent made above ih => exact not_mem_of_parent? (by decide) ih above

theorem ofText_canonical (text : String) : (ofText text).Canonical :=
  canonical_clean (not_mem_slashed _)

/-- Every text has one canonical spelling, which shows its root and the segments that it settles to
and nothing else. What is built by joining or read from a working directory is spelled so too. -/
theorem canonical_spelling (text rest : String) :
    let root := rootOf (slashed text.toList)
    let pieces := Text.pieces '/' (slashed text.toList)
    (ofText text).Canonical ∧ '\\' ∉ (ofText text).text.toList ∧
      (∀ front back, (ofText text).text.toList = front ++ '/' :: '/' :: back →
        front = [] ∧ root = .network) ∧
      ((ofText text).text.toList.getLast? = some '/' →
        Settles pieces [] ∨ root = .relative ∧ ∃ drive, Settles pieces [drive] ∧ isDrive drive) ∧
      ((ofText text).text = "." ↔ root = .relative ∧ Settles pieces []) ∧
      ((ofText text).text ≠ "." → ∀ name ∈ (ofText text).segments, IsSegment name.toList) ∧
      (ofText text = ofText rest ↔ root = rootOf (slashed rest.toList) ∧
        ∃ kept, Settles pieces kept ∧ Settles (Text.pieces '/' (slashed rest.toList)) kept) ∧
      (∀ path, Made path → (path.join text).Canonical) ∧
      ∀ disk path, Disk.absolute disk text = .ok path → path.Canonical := by
  intro root pieces
  have plain : ∀ segment ∈ settled pieces, IsSegment segment := fun segment =>
    isSegment_of_mem_settled
  have spelling : (ofText text).text.toList = spelled root (settled pieces) := by
    rw [ofText_toList, start_eq_rootOf]
  refine ⟨ofText_canonical text, (Made.ofText text).noBackslash, ?_, ?_, ?_,
    fun shown name => isSegment_of_mem_segments shown, ofText_inj,
    fun path made => join_canonical made.noBackslash text, ?_⟩
  · intro front back doubled
    exact network_of_doubled plain (spelling.symm.trans doubled)
  · intro trailing
    rw [spelling] at trailing
    simpa only [settles_iff] using root_or_drive_of_trailing plain trailing
  · have dot : (ofText text).text = "." ↔ spelled root (settled pieces) = spelled .relative [] := by
      rw [← spelling]
      exact String.toList_inj.symm
    rw [dot, spelled_inj plain (by simp), settles_iff]
  · intro disk path read
    obtain ⟨-, -, rfl⟩ := Disk.absolute_ok read
    exact ofText_canonical _

/-- A drive alone keeps its slash, and `..` behind it changes nothing. -/
example : ofText "lib/../C:\\.." = ⟨"C:/"⟩ ∧ ofText "C:/" = ⟨"C:/"⟩ ∧
    ofText "/C:/.." = ⟨"/C:"⟩ := by
  decide

end ManifestSearch.Path
