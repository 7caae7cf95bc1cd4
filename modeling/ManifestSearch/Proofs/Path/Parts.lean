import ManifestSearch.Proofs.Path.Segments

/-!
The parts of a path at a root: its segments, its last name, and what lies below another path. The
paths that a search starts from are `Grounded`, and entering names adds them to the segments.
-/

namespace ManifestSearch

/-- The text reached from a directory by entering names one after another. -/
def RawText.descend (text : String) (names : Location) : String := names.foldl RawText.join text

def segmentsOf (names : Location) : List (List Char) := names.map String.toList

/-- A segment is never taken for a text of its own. -/
theorem RawText.join_of_isSegment {front name : String} (occupied : front ≠ "")
    (plain : Path.IsSegment name.toList) :
    join front name = if front.toList.getLast? = some '/' then front ++ name
      else front ++ "/" ++ name := by
  refine if_neg fun either => ?_
  rcases either with rooted | empty
  · have head : name.toList.head? = some '/' := by simpa [startsAtRoot] using rooted
    exact plain.noSlash (List.mem_of_head? head)
  · exact occupied empty

/-- Names stand behind one slash each where they are entered. -/
theorem RawText.toList_descend {text : String} {names : Location} (full : text ≠ "")
    (unended : text.toList.getLast? ≠ some '/') (further : names ≠ [])
    (plain : ∀ name ∈ names, Path.IsSegment name.toList) :
    (descend text names).toList = text.toList ++ '/' :: Text.joined '/' (segmentsOf names) := by
  induction names generalizing text with
  | nil => contradiction
  | cons name names ih =>
      have first := plain name (by simp)
      have others := fun other member => plain other (List.mem_cons_of_mem name member)
      have entered : (join text name).toList = text.toList ++ '/' :: name.toList := by
        rw [join_of_isSegment full first, if_neg unended]
        simp
      change (descend (join text name) names).toList = _
      by_cases alone : names = []
      · simp [alone, descend, entered, segmentsOf, Text.joined]
      · have occupied : join text name ≠ "" := fun empty => by simp [empty] at entered
        have ending : (join text name).toList.getLast? ≠ some '/' := by
          obtain ⟨char, ending, other⟩ := first.getLast?_append (text.toList ++ ['/'])
          rw [entered, List.append_cons, ending]
          simp [other]
        have segments : names.map String.toList ≠ [] := by simpa using alone
        rw [ih occupied ending alone others, entered]
        simp [segmentsOf, Text.joined_cons segments]

theorem RawText.settleEnd_cons {piece : List Char} (plain : Path.IsSegment piece) (rooted : Bool)
    (before : List (List Char)) : settleEnd rooted (piece :: before) = piece :: before := by
  simp [settleEnd, plain.full, plain.notDot]

namespace Path

variable {path base : Path} {start : Start} {segments more : List (List Char)}

namespace Spelled

theorem slashed_text (spelling : path.Spelled start segments)
    (free : ∀ segment ∈ segments, '\\' ∉ segment) : slashed path.text.toList = path.text.toList := by
  rw [spelling.text]
  exact slashed_of_not_mem (not_mem_spelled (by decide) spelling.atRoot free)

theorem canonical (spelling : path.Spelled start segments)
    (free : ∀ segment ∈ segments, '\\' ∉ segment) : path.Canonical := by
  rw [Canonical, ofText, spelling.slashed_text free, spelling.text,
    clean_spelled spelling.atRoot spelling.plain, ← spelling.text, String.ofList_toList]

theorem ofText_text (spelling : path.Spelled start segments)
    (free : ∀ segment ∈ segments, '\\' ∉ segment) : ofText path.text = path :=
  spelling.canonical free

theorem startsAtRoot (spelling : path.Spelled start segments) : startsAtRoot path.text := by
  rw [ManifestSearch.startsAtRoot, spelling.text]
  have atRoot := spelling.atRoot
  cases start with
  | relative => contradiction
  | rooted => simp [spelled]
  | network => simp [spelled]

theorem text_ne_empty (spelling : path.Spelled start segments) : path.text ≠ "" := by
  intro empty
  have rooted := spelling.startsAtRoot
  simp [empty, ManifestSearch.startsAtRoot] at rooted

theorem segments_eq (spelling : path.Spelled start segments) :
    path.segments = segments.map String.ofList := by
  rw [Path.segments, spelling.text, filter_pieces_spelled spelling.atRoot spelling.plain]

theorem trimmed_of_nil (spelling : path.Spelled start []) : path.trimmed = [] := by
  rw [trimmed, spelling.text]
  have atRoot := spelling.atRoot
  cases start with
  | relative => contradiction
  | rooted => rfl
  | network => rfl

theorem trimmed_eq (spelling : path.Spelled start segments) (occupied : segments ≠ []) :
    path.trimmed = path.text.toList := by
  obtain ⟨char, ending, other⟩ :=
    getLast?_spelled_ne_slash spelling.atRoot occupied spelling.plain
  rw [trimmed, spelling.text]
  exact Text.dropEnd_of_getLast? ending (by simp [other])

theorem fileName?_concat {last : List Char} (spelling : path.Spelled start (segments ++ [last])) :
    path.fileName? = some (String.ofList last) := by
  have plainLast := spelling.plain last (by simp)
  have whole := spelling.trimmed_eq (by simp)
  obtain ⟨before, cut⟩ : ∃ before, path.text.toList = before ++ '/' :: last := by
    have atRoot := spelling.atRoot
    rw [spelling.text]
    by_cases alone : segments = []
    · subst alone
      cases start with
      | relative => contradiction
      | rooted => exact ⟨[], rfl⟩
      | network => exact ⟨['/'], rfl⟩
    · exact ⟨_, spelled_append atRoot alone (by simp)⟩
  simp [fileName?, whole, cut, Text.cutLast?_append before plainLast.noSlash, plainLast.full,
    plainLast.notDot]

theorem fileName?_eq (spelling : path.Spelled start segments) :
    path.fileName? = path.segments.getLast? := by
  rw [spelling.segments_eq]
  by_cases alone : segments = []
  · subst alone
    simp [fileName?, spelling.trimmed_of_nil, Text.cutLast?]
  · obtain ⟨before, last, rfl⟩ : ∃ before last, segments = before ++ [last] :=
      ⟨_, _, (List.dropLast_concat_getLast alone).symm⟩
    rw [spelling.fileName?_concat]
    simp

theorem unique (spelling : path.Spelled start segments) (other : base.Spelled start segments) :
    path = base := by
  have same : path.text = base.text := String.toList_inj.mp (spelling.text.trans other.text.symm)
  cases path
  cases base
  exact congrArg Path.mk same

end Spelled

theorem start_cons_slash (rest : List Char) : Path.start ('/' :: rest) ≠ .relative := by
  unfold Path.start
  split
  · simp
  · simp
  · simp
  · rename_i absent
    exact absurd rfl (absent rest)

theorem start_eq_relative {text : List Char} (other : text.head? ≠ some '/') :
    Path.start text = .relative := by
  unfold Path.start
  split
  · simp at other
  · simp at other
  · simp at other
  · rfl

theorem start_spelled_relative (plain : ∀ segment ∈ segments, IsSegment segment) :
    Path.start (spelled .relative segments) = .relative := by
  have head := joined_head_ne_slash plain
  match segments, head with
  | [], _ => rfl
  | [only], head =>
      have full := (plain only (by simp)).full
      simp only [spelled]
      split
      · obtain ⟨char, rest, rfl⟩ := List.exists_cons_of_ne_nil full
        exact start_eq_relative (by simpa [Text.joined] using head)
      · exact start_eq_relative head
  | _ :: _ :: _, head => exact start_eq_relative head

theorem start_clean (text : List Char) : Path.start (clean text) = Path.start text := by
  have plain : ∀ segment ∈ settled (Text.pieces '/' text), IsSegment segment :=
    fun segment => isSegment_of_mem_settled
  rw [clean]
  cases Path.start text with
  | relative => exact start_spelled_relative plain
  | rooted => exact start_spelled (by simp) plain
  | network => exact start_spelled (by simp) plain

theorem spelled_clean {text : List Char} (atRoot : Path.start text ≠ .relative) :
    Spelled ⟨String.ofList (clean text)⟩ (Path.start text) (settled (Text.pieces '/' text)) :=
  ⟨atRoot, fun _ => isSegment_of_mem_settled, String.toList_ofList⟩

theorem start_ne_relative {text : List Char} (head : text.head? = some '/') :
    Path.start text ≠ .relative := by
  obtain ⟨rest, rfl⟩ := List.head?_eq_some_iff.mp head
  exact start_cons_slash rest

theorem ofText_spelled {text : String} (rooted : ManifestSearch.startsAtRoot text) :
    ∃ start segments, (ofText text).Spelled start segments ∧
      ∀ segment ∈ segments, '\\' ∉ segment := by
  have head : (slashed text.toList).head? = some '/' := by
    have first : text.toList.head? = some '/' := by
      simpa [ManifestSearch.startsAtRoot] using rooted
    simp [slashed, first]
  exact ⟨_, _, spelled_clean (start_ne_relative head), fun segment member inside =>
    not_mem_slashed text.toList (mem_of_mem_settled member inside)⟩

theorem Grounded.spelled (grounded : path.Grounded) :
    ∃ start segments, path.Spelled start segments ∧ ∀ segment ∈ segments, '\\' ∉ segment := by
  obtain ⟨canonical, rooted⟩ := grounded
  have spelling := ofText_spelled rooted
  rwa [canonical] at spelling

theorem Grounded.spelled_rooted (grounded : path.Grounded)
    (single : Path.start path.text.toList = .rooted) :
    ∃ segments, path.Spelled .rooted segments ∧ ∀ segment ∈ segments, '\\' ∉ segment := by
  obtain ⟨start, segments, spelling, free⟩ := grounded.spelled
  obtain rfl : start = .rooted := by
    rw [← Path.start_spelled spelling.atRoot spelling.plain, ← spelling.text, single]
  exact ⟨segments, spelling, free⟩

theorem Spelled.grounded (spelling : path.Spelled start segments)
    (free : ∀ segment ∈ segments, '\\' ∉ segment) : path.Grounded :=
  ⟨spelling.canonical free, spelling.startsAtRoot⟩

theorem ofText_grounded {text : String} (rooted : ManifestSearch.startsAtRoot text) :
    (ofText text).Grounded := by
  obtain ⟨start, segments, spelling, free⟩ := ofText_spelled rooted
  exact spelling.grounded free

/-! What lies below a path. -/

theorem Spelled.text_below (spelling : base.Spelled start segments)
    (longer : path.Spelled start (segments ++ more)) (single : start = .rooted ∨ segments ≠ [])
    (further : more ≠ []) :
    path.text.toList = base.trimmed ++ '/' :: Text.joined '/' more := by
  by_cases alone : segments = []
  · subst alone
    have rooted := single.resolve_right (by simp)
    subst rooted
    rw [spelling.trimmed_of_nil, longer.text]
    rfl
  · rw [spelling.trimmed_eq alone, longer.text, spelling.text]
    exact spelled_append spelling.atRoot alone further

theorem relativeTo?_of_append {rest : List Char}
    (text : path.text.toList = base.trimmed ++ '/' :: rest) :
    path.relativeTo? base = some (String.ofList rest) := by
  have cut := Text.after?_eq_some_iff.mpr text
  simp only [relativeTo?, cut]

theorem Spelled.relativeTo?_eq (spelling : base.Spelled start segments)
    (longer : path.Spelled start (segments ++ more)) (single : start = .rooted ∨ segments ≠ [])
    (further : more ≠ []) :
    path.relativeTo? base = some (String.ofList (Text.joined '/' more)) :=
  relativeTo?_of_append (spelling.text_below longer single further)

/-- A path at or below another one has the segments of the other in front. -/
theorem Spelled.eq_append_of_relativeTo? {relative : String} {other : Start}
    {whole : List (List Char)} (spelling : base.Spelled start segments)
    (longer : path.Spelled other whole) (same : segments ≠ [] → other = start)
    (inside : path.relativeTo? base = some relative) :
    ∃ more, whole = segments ++ more ∧
      (other = .rooted ∨ segments ≠ [] → relative.toList = Text.joined '/' more) := by
  by_cases alone : segments = []
  · subst alone
    refine ⟨whole, rfl, ?_⟩
    intro single
    have rooted := single.resolve_right (by simp)
    subst rooted
    have text : path.text.toList = base.trimmed ++ '/' :: Text.joined '/' whole := by
      rw [spelling.trimmed_of_nil, longer.text]
      rfl
    rw [relativeTo?_of_append text, Option.some.injEq] at inside
    rw [← inside, String.toList_ofList]
  · have started := same alone
    subst started
    have kept := filter_pieces_spelled longer.atRoot longer.plain
    simp only [relativeTo?] at inside
    split at inside
    · rename_i cut
      have text := Text.after?_eq_some_iff.mp cut
      rw [List.append_nil, spelling.trimmed_eq alone, longer.text, spelling.text] at text
      rw [text, filter_pieces_spelled spelling.atRoot spelling.plain] at kept
      cases inside
      exact ⟨[], by rw [List.append_nil, kept], fun _ => rfl⟩
    · rename_i rest cut
      have text := Text.after?_eq_some_iff.mp cut
      rw [spelling.trimmed_eq alone, longer.text, spelling.text] at text
      rw [text, Text.pieces_append, List.filter_append,
        filter_pieces_spelled spelling.atRoot spelling.plain] at kept
      generalize (Text.pieces '/' rest).filter (· ≠ []) = more at kept
      subst kept
      cases inside
      refine ⟨more, rfl, fun _ => ?_⟩
      rw [String.toList_ofList]
      by_cases none : more = []
      · simp [none] at text
      · rw [spelled_append spelling.atRoot alone none] at text
        simpa using text.symm
    · contradiction

theorem Spelled.start_of_relativeTo? {relative : String} (spelling : base.Spelled start segments)
    (occupied : segments ≠ []) (inside : path.relativeTo? base = some relative) :
    Path.start path.text.toList = start := by
  have goesOn (rest : List Char) (cut : Text.after? base.trimmed path.text.toList = some rest) :
      Path.start path.text.toList = start := by
    rw [Text.after?_eq_some_iff.mp cut, spelling.trimmed_eq occupied, spelling.text]
    exact start_spelled_append spelling.atRoot occupied spelling.plain rest
  rw [relativeTo?] at inside
  split at inside
  · rename_i cut
    exact goesOn _ cut
  · rename_i cut
    exact goesOn _ cut
  · contradiction

/-- A path lies at or below another one exactly if its segments go on from those of the other. -/
theorem Spelled.relativeTo?_isSome_iff {other : Start} {whole : List (List Char)}
    (spelling : base.Spelled start segments) (longer : path.Spelled other whole)
    (same : segments ≠ [] → other = start) :
    (path.relativeTo? base).isSome ↔ segments <+: whole := by
  constructor
  · intro inside
    obtain ⟨relative, found⟩ := Option.isSome_iff_exists.mp inside
    obtain ⟨more, append, -⟩ := spelling.eq_append_of_relativeTo? longer same found
    exact ⟨more, append.symm⟩
  · intro goesOn
    obtain ⟨more, append⟩ := goesOn
    by_cases alone : segments = []
    · subst alone
      have head : path.text.toList.head? = some '/' := by
        simpa [ManifestSearch.startsAtRoot] using longer.startsAtRoot
      obtain ⟨rest, text⟩ := List.head?_eq_some_iff.mp head
      rw [relativeTo?_of_append (by rw [spelling.trimmed_of_nil, text]; rfl)]
      rfl
    · have started := same alone
      subst started append
      by_cases none : more = []
      · have text : path.text.toList = base.trimmed ++ [] := by
          rw [spelling.trimmed_eq alone, longer.text, spelling.text, none]
          simp
        simp [relativeTo?, Text.after?_eq_some_iff.mpr text]
      · rw [spelling.relativeTo?_eq longer (.inr alone) none]
        rfl

/-! Going further down. -/

theorem Spelled.join (spelling : base.Spelled start segments)
    (plain : ∀ segment ∈ more, IsSegment segment) (free : ∀ segment ∈ more, '\\' ∉ segment) :
    (base.join (String.ofList (Text.joined '/' more))).Spelled start (segments ++ more) := by
  have atRoot := spelling.atRoot
  have allPlain : ∀ segment ∈ segments ++ more, IsSegment segment := by
    intro segment member
    exact (List.mem_append.mp member).elim (spelling.plain segment) (plain segment)
  have noBackslash : '\\' ∉ Text.joined '/' more := by
    intro member
    rcases Text.mem_joined member with same | ⟨segment, inside, member⟩
    · simp at same
    · exact free segment inside member
  refine ⟨atRoot, allPlain, ?_⟩
  simp only [Path.join, String.toList_ofList, slashed_of_not_mem noBackslash, spelling.text]
  by_cases alone : segments = []
  · subst alone
    cases start with
    | relative => contradiction
    | rooted => exact clean_spelled atRoot plain
    | network => exact clean_spelled atRoot plain
  · obtain ⟨char, ending, other⟩ := getLast?_spelled_ne_slash atRoot alone spelling.plain
    rw [ending, if_neg (by simp [other])]
    by_cases none : more = []
    · subst none
      have pieces := filter_pieces_spelled atRoot spelling.plain
      have trailing : Text.pieces '/' (spelled start segments ++ ['/']) =
          Text.pieces '/' (spelled start segments) ++ [[]] := Text.pieces_append _ []
      have kept : (Text.pieces '/' (spelled start segments ++ ['/'])).filter (· ≠ []) = segments := by
        rw [trailing, List.filter_append, pieces]
        simp
      simp only [Text.joined, List.append_nil]
      rw [clean, start_spelled_append atRoot alone spelling.plain,
        settled_plain (by rw [kept]; exact spelling.plain), kept]
    · rw [List.append_assoc, List.singleton_append, ← spelled_append atRoot alone none]
      exact clean_spelled atRoot allPlain

theorem Spelled.enter {name : String} (spelling : base.Spelled start segments)
    (plain : IsSegment name.toList) :
    Spelled ⟨RawText.join base.text name⟩ start (segments ++ [name.toList]) := by
  have atRoot := spelling.atRoot
  refine ⟨atRoot, ?_, ?_⟩
  · intro segment member
    rcases List.mem_append.mp member with member | member
    · exact spelling.plain segment member
    · rw [List.mem_singleton.mp member]
      exact plain
  · simp only [RawText.join_of_isSegment spelling.text_ne_empty plain, spelling.text]
    by_cases alone : segments = []
    · subst alone
      cases start with
      | relative => contradiction
      | rooted => simp [spelled, Text.joined, spelling.text]
      | network => simp [spelled, Text.joined, spelling.text]
    · obtain ⟨char, ending, other⟩ := getLast?_spelled_ne_slash atRoot alone spelling.plain
      rw [ending, if_neg (by simp [other]), spelled_append atRoot alone (by simp)]
      simp [spelling.text, Text.joined]

theorem Spelled.descend {names : Location} (spelling : base.Spelled start segments)
    (plain : ∀ name ∈ names, IsSegment name.toList) :
    Spelled ⟨RawText.descend base.text names⟩ start (segments ++ segmentsOf names) := by
  induction names generalizing base segments with
  | nil => simpa [RawText.descend, segmentsOf] using spelling
  | cons name names ih =>
      have entered := spelling.enter (plain name (by simp))
      have further := ih entered fun other member => plain other (List.mem_cons_of_mem name member)
      simpa [RawText.descend, segmentsOf] using further

theorem Spelled.segments_descend {names : Location} (spelling : base.Spelled start segments)
    (plain : ∀ name ∈ names, IsSegment name.toList) :
    Path.segments ⟨RawText.descend base.text names⟩ = base.segments ++ names := by
  rw [(spelling.descend plain).segments_eq, spelling.segments_eq]
  simp [segmentsOf, Function.comp_def]

theorem Spelled.fileName?_descend {names : Location} (spelling : base.Spelled start segments)
    (occupied : names ≠ []) (plain : ∀ name ∈ names, IsSegment name.toList) :
    Path.fileName? ⟨RawText.descend base.text names⟩ = names.getLast? := by
  rw [(spelling.descend plain).fileName?_eq, spelling.segments_descend plain, List.getLast?_append,
    List.getLast?_eq_some_getLast occupied, Option.some_or]

theorem Spelled.ofText_descend {names : Location} (spelling : base.Spelled start segments)
    (free : ∀ segment ∈ segments, '\\' ∉ segment) (plain : ∀ name ∈ names, IsSegment name.toList)
    (tame : ∀ name ∈ names, '\\' ∉ name.toList) :
    ofText (RawText.descend base.text names) = ⟨RawText.descend base.text names⟩ := by
  refine (spelling.descend plain).ofText_text fun segment member => ?_
  rcases List.mem_append.mp member with member | member
  · exact free segment member
  · obtain ⟨name, inNames, rfl⟩ := List.mem_map.mp member
    exact tame name inNames

/-! The path above a path. -/

theorem Spelled.length_le (spelling : path.Spelled start segments) :
    segments.length ≤ path.text.toList.length := by
  have body : segments.length ≤ (Text.joined '/' segments).length :=
    Text.length_le_joined fun segment member => (spelling.plain segment member).full
  have atRoot := spelling.atRoot
  rw [spelling.text]
  cases start with
  | relative => contradiction
  | rooted => simp only [spelled, List.length_cons]; omega
  | network => simp only [spelled, List.length_cons]; omega

theorem Spelled.parent? {last : List Char} (spelling : path.Spelled start (segments ++ [last])) :
    ∃ above other, RawText.parent? path.text = some above.text ∧ Spelled above other segments ∧
      (segments ≠ [] → other = start) := by
  have plainLast := spelling.plain last (by simp)
  have plainFront : ∀ segment ∈ segments, IsSegment segment := fun segment member =>
    spelling.plain segment (by simp [member])
  have settles (rest : List (List Char)) (occupied : segments ≠ []) :
      RawText.settleEnd true (segments.reverse ++ rest) = segments.reverse ++ rest := by
    obtain ⟨before, piece, rfl⟩ := (List.eq_nil_or_concat segments).resolve_left occupied
    rw [List.concat_eq_append, List.reverse_append, List.reverse_singleton, List.singleton_append,
      List.cons_append]
    exact RawText.settleEnd_cons (plainFront piece (by simp)) true _
  have cut : Text.pieces '/' (Text.joined '/' (segments ++ [last])) = segments ++ [last] :=
    Text.pieces_joined (by simp) fun segment member => (spelling.plain segment member).noSlash
  have atRoot := spelling.atRoot
  simp only [RawText.parent?, spelling.startsAtRoot, if_true, spelling.text]
  cases start with
  | relative => contradiction
  | rooted =>
      refine ⟨⟨String.ofList ('/' :: Text.joined '/' segments)⟩, .rooted, ?_,
        ⟨by simp, plainFront, String.toList_ofList⟩, fun _ => rfl⟩
      have whole : RawText.settleEnd true segments.reverse = segments.reverse := by
        by_cases occupied : segments = []
        · simp [occupied, RawText.settleEnd]
        · simpa using settles [] occupied
      simp only [spelled, List.tail_cons, cut, List.reverse_append, List.reverse_singleton,
        List.singleton_append, RawText.settleEnd_cons plainLast, whole, List.reverse_reverse]
  | network =>
      have step : Text.pieces '/' ('/' :: Text.joined '/' (segments ++ [last])) =
          [] :: (segments ++ [last]) := by
        simp [Text.pieces, cut]
      simp only [spelled, List.tail_cons, step, List.reverse_cons, List.reverse_append,
        List.reverse_nil, List.nil_append, List.cons_append,
        RawText.settleEnd_cons plainLast]
      by_cases occupied : segments = []
      · subst occupied
        exact ⟨⟨"/"⟩, .rooted, by simp [RawText.settleEnd, Text.joined], ⟨by simp, by simp, rfl⟩,
          by simp⟩
      · refine ⟨⟨String.ofList ('/' :: '/' :: Text.joined '/' segments)⟩, .network, ?_,
          ⟨by simp, plainFront, String.toList_ofList⟩, fun _ => rfl⟩
        simp [settles [[]] occupied, Text.joined_cons occupied]

theorem Spelled.parent?_descend {names : Location} {last : String}
    (spelling : path.Spelled start segments) (occupied : segments ≠ [])
    (plain : ∀ name ∈ names ++ [last], IsSegment name.toList) :
    RawText.parent? (RawText.descend path.text (names ++ [last])) =
      some (RawText.descend path.text names) := by
  have longer := spelling.descend plain
  have front := spelling.descend fun name member => plain name (List.mem_append_left [last] member)
  rw [segmentsOf, List.map_append, List.map_singleton, ← List.append_assoc] at longer
  obtain ⟨above, other, parent, spelledAbove, same⟩ := longer.parent?
  obtain rfl := same (by simp [occupied])
  rw [parent, spelledAbove.unique front]

end Path

end ManifestSearch
