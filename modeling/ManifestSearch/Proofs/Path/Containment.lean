import ManifestSearch.Proofs.Path.Joining

/-!
What lies below a path, by segments. The text of a path goes on from that of another one exactly if
both have the same root and the segments of the other stand in front; what is left is the text of the
other segments (`Shows.relativeTo?_iff`). A bare root is the exception: it takes one slash off every
text that starts with one, so it does not tell a network root from the root.
-/

namespace ManifestSearch.Path

variable {path base : Path} {start other : Start} {segments more whole : List (List Char)}
  {rest : String}

/-! The text without a slash at its end. -/

def marks : Start → List Char
  | .relative => []
  | .rooted => ['/']
  | .network => ['/', '/']

/-- The text of a start and of segments, also where a drive alone has a slash behind it. -/
def body (start : Start) (segments : List (List Char)) : List Char :=
  marks start ++ Text.joined '/' segments

/-- Only a drive alone is spelled with a slash behind it. -/
theorem spelled_eq_body (occupied : segments ≠ []) :
    spelled start segments = body start segments ∨
      spelled start segments = body start segments ++ ['/'] := by
  cases start with
  | rooted => exact .inl rfl
  | network => exact .inl rfl
  | relative =>
      match segments, occupied with
      | [only], _ =>
          simp only [spelled]
          split
          · exact .inr rfl
          · exact .inl rfl
      | _ :: _ :: _, _ => exact .inl rfl

theorem spelled_goes_on (occupied : segments ≠ []) (further : more ≠ []) :
    spelled start (segments ++ more) = body start segments ++ '/' :: Text.joined '/' more := by
  have joined : Text.joined '/' (segments ++ more) =
      Text.joined '/' segments ++ '/' :: Text.joined '/' more := Text.joined_append occupied further
  cases start with
  | rooted => simp [spelled, body, marks, joined]
  | network => simp [spelled, body, marks, joined]
  | relative =>
      obtain ⟨first, tail, rfl⟩ := List.exists_cons_of_ne_nil occupied
      obtain ⟨next, others, rfl⟩ := List.exists_cons_of_ne_nil further
      cases tail with
      | nil => exact joined
      | cons second tail => exact joined

namespace Shows

theorem getLast?_body (shows : path.Shows start segments) (occupied : segments ≠ []) :
    ∃ char, (body start segments).getLast? = some char ∧ char ≠ '/' := by
  have full : Text.joined '/' segments ≠ [] := fun empty =>
    occupied ((Text.joined_eq_nil fun segment member => (shows.plain segment member).full).mp empty)
  have ending := getLast?_joined_ne_slash shows.plain
  rw [List.getLast?_eq_some_getLast full] at ending
  refine ⟨(Text.joined '/' segments).getLast full, ?_, fun same =>
    ending (congrArg some same)⟩
  rw [body, List.getLast?_append, List.getLast?_eq_some_getLast full, Option.some_or]

theorem trimmed_eq (shows : path.Shows start segments) (occupied : segments ≠ []) :
    path.trimmed = body start segments := by
  obtain ⟨char, ending, other⟩ := shows.getLast?_body occupied
  have kept : Text.dropEnd (· == '/') (body start segments) = body start segments :=
    Text.dropEnd_of_getLast? ending (by simp [other])
  rw [trimmed, shows.text]
  rcases spelled_eq_body occupied with same | longer
  · rw [same, kept]
  · rw [longer]
    simpa [Text.dropEnd] using kept

theorem not_onlySlashes_body (shows : path.Shows start segments) (occupied : segments ≠ []) :
    ¬OnlySlashes (body start segments) := by
  intro only
  obtain ⟨char, ending, other⟩ := shows.getLast?_body occupied
  exact other (only char (List.mem_of_getLast? ending))

/-- The root and the segments of a path are those of its text without a slash at its end. -/
theorem rootOf_body (shows : path.Shows start segments) (occupied : segments ≠ []) :
    rootOf (body start segments) = start := by
  have whole := shows.rootOf_eq
  rw [shows.text] at whole
  rcases spelled_eq_body occupied with same | longer
  · rwa [same] at whole
  · rw [longer] at whole
    have kept := leading_append_of_not (shows.not_onlySlashes_body occupied) ['/']
    exact (rootOf_congr kept).symm.trans whole

theorem filter_pieces_body (shows : path.Shows start segments) (occupied : segments ≠ []) :
    (Text.pieces '/' (body start segments)).filter (· ≠ []) = segments := by
  have whole := filter_pieces_spelled_any shows.plain shows.shown
  rcases spelled_eq_body occupied with same | longer
  · rwa [same] at whole
  · rw [longer, Text.pieces_append, List.filter_append] at whole
    simpa [Text.pieces] using whole

theorem filter_pieces_text (shows : path.Shows start segments) :
    (Text.pieces '/' path.text.toList).filter (· ≠ []) = segments := by
  rw [shows.text]
  exact filter_pieces_spelled_any shows.plain shows.shown

/-- A text that goes on from that of a path has its root, and its segments in front. -/
theorem goes_on (shows : path.Shows other whole) (below : base.Shows start segments)
    (occupied : segments ≠ [])
    (text : path.text.toList = body start segments ++ '/' :: rest.toList) :
    other = start ∧ ∃ more, whole = segments ++ more ∧ rest.toList = Text.joined '/' more := by
  have root : other = start := by
    have kept := leading_append_of_not (below.not_onlySlashes_body occupied) ('/' :: rest.toList)
    have reached := shows.rootOf_eq
    rw [text, rootOf_congr kept] at reached
    exact reached.symm.trans (below.rootOf_body occupied)
  have kept := shows.filter_pieces_text
  rw [text, Text.pieces_append, List.filter_append, below.filter_pieces_body occupied] at kept
  refine ⟨root, _, kept.symm, ?_⟩
  generalize (Text.pieces '/' rest.toList).filter (· ≠ []) = more at kept
  subst root kept
  have spelling := text.symm.trans shows.text
  by_cases none : more = []
  · subst none
    rw [List.append_nil] at spelling
    rcases @spelled_eq_body other _ occupied with same | longer
    · simp [same] at spelling
    · simpa [longer, Text.joined] using spelling
  · rw [spelled_goes_on occupied none] at spelling
    simpa using spelling

/-- Below a path that has segments lie the paths with the same root and the same segments in front. -/
theorem relativeTo?_iff (shows : path.Shows other whole) (below : base.Shows start segments)
    (occupied : segments ≠ []) : path.relativeTo? base = some rest ↔
      other = start ∧ ∃ more, whole = segments ++ more ∧ rest.toList = Text.joined '/' more := by
  rw [relativeTo?_eq_some_iff, below.trimmed_eq occupied]
  constructor
  · rintro (text | ⟨rfl, text⟩)
    · exact shows.goes_on below occupied text
    · have root := shows.rootOf_eq
      have kept := shows.filter_pieces_text
      rw [text] at root kept
      rw [below.rootOf_body occupied] at root
      rw [below.filter_pieces_body occupied] at kept
      exact ⟨root.symm, [], by simp [kept], rfl⟩
  · rintro ⟨rfl, more, rfl, text⟩
    rw [shows.text, text]
    by_cases none : more = []
    · subst none
      rw [List.append_nil]
      rcases @spelled_eq_body other _ occupied with same | longer
      · exact .inr ⟨String.toList_inj.mp text, same⟩
      · exact .inl longer
    · exact .inl (spelled_goes_on occupied none)

end Shows

/-! Containment. -/

/-- Whether a path has the root of another one and its segments in front, and which text is left. -/
def Contained (path base : Path) (rest : String) : Prop :=
  rootOf path.text.toList = rootOf base.text.toList ∧
    ∃ names : Location, path.segments = base.segments ++ names ∧
      rest.toList = Text.joined '/' (segmentsOf names)

/-- Whether a bare root is taken for that of a path, although one of the two is a network root. -/
def Conflates (path base : Path) : Prop :=
  base.IsBareRoot ∧ startsAtRoot path.text ∧
    (rootOf path.text.toList = .network ∨ rootOf base.text.toList = .network)

instance (path base : Path) : Decidable (Conflates path base) :=
  inferInstanceAs (Decidable (_ ∧ _ ∧ _))

theorem segmentsOf_ofList (segments : List (List Char)) :
    segmentsOf (segments.map String.ofList) = segments := by
  simp [segmentsOf, Function.comp_def]

namespace Shows

theorem contained_iff (shows : path.Shows other whole) (below : base.Shows start segments) :
    Contained path base rest ↔
      other = start ∧ ∃ more, whole = segments ++ more ∧ rest.toList = Text.joined '/' more := by
  rw [Contained, shows.rootOf_eq, below.rootOf_eq, shows.segments_eq, below.segments_eq]
  refine and_congr_right fun _ => ⟨?_, ?_⟩
  · rintro ⟨names, append, text⟩
    refine ⟨segmentsOf names, ?_, text⟩
    have lists := congrArg segmentsOf append
    rwa [segmentsOf_ofList, segmentsOf, List.map_append, ← segmentsOf, segmentsOf_ofList] at lists
  · rintro ⟨more, rfl, text⟩
    exact ⟨more.map String.ofList, List.map_append, by rwa [segmentsOf_ofList]⟩

theorem startsAtRoot_iff (shows : path.Shows start segments) :
    startsAtRoot path.text ↔ start ≠ .relative := by
  have same : Path.start path.text.toList = start := by
    rw [start_eq_rootOf, shows.rootOf_eq]
  rw [← same]
  refine ⟨fun rooted => start_ne_relative (by simpa [startsAtRoot] using rooted), fun atRoot => ?_⟩
  by_contra other
  exact atRoot (start_eq_relative (by simpa [startsAtRoot] using other))

theorem isBareRoot_iff (shows : path.Shows start segments) : path.IsBareRoot ↔ segments = [] := by
  rw [Path.isBareRoot_iff]
  constructor
  · intro bare
    rw [← shows.filter_pieces_text]
    rcases bare with text | text
    · rw [text]
      rfl
    · rw [text]
      rfl
  · rintro rfl
    have text := shows.text
    cases start with
    | relative => exact absurd shows.shown (by simp)
    | rooted => exact .inl text
    | network => exact .inr text

theorem conflates_iff (shows : path.Shows other whole) (below : base.Shows start segments) :
    Conflates path base ↔
      segments = [] ∧ other ≠ .relative ∧ (other = .network ∨ start = .network) := by
  rw [Conflates, below.isBareRoot_iff, shows.startsAtRoot_iff, shows.rootOf_eq, below.rootOf_eq]

theorem trimmed_of_nil (root : base.Shows start []) : base.trimmed = [] :=
  Spelled.trimmed_of_nil ⟨by simpa using root.shown, root.plain, root.text⟩

/-- A bare root takes one slash off every text that starts with one. -/
theorem relativeTo?_root_iff (shows : path.Shows other whole) (root : base.Shows start []) :
    path.relativeTo? base = some rest ↔ spelled other whole = '/' :: rest.toList := by
  rw [relativeTo?_eq_some_iff, root.trimmed_of_nil, List.nil_append, String.toList_eq_nil_iff,
    or_iff_left fun empty => shows.text_ne_empty empty.2, shows.text]

theorem contained_root_iff (shows : path.Shows other whole) (root : base.Shows start []) :
    Contained path base rest ↔ other = start ∧ rest.toList = Text.joined '/' whole := by
  rw [shows.contained_iff root]
  simp

/-- So it finds the paths below it only if all slashes of their root are its own. -/
theorem root_contains_iff (shows : path.Shows other whole) (root : base.Shows start []) :
    (∀ rest, path.relativeTo? base = some rest ↔ Contained path base rest) ↔
      ¬(other ≠ .relative ∧ (other = .network ∨ start = .network)) := by
  have atRoot : start ≠ .relative := by simpa using root.shown
  simp only [shows.relativeTo?_root_iff root, shows.contained_root_iff root]
  cases other with
  | relative =>
      refine iff_of_true (fun rest => iff_of_false ?_ fun same => atRoot same.1.symm) (by simp)
      intro slash
      have relative := start_spelled_relative shows.plain
      rw [slash] at relative
      exact start_cons_slash _ relative
  | network =>
      refine iff_of_false (fun agree => ?_) (by simp)
      have text : spelled .network whole =
          '/' :: (String.ofList ('/' :: Text.joined '/' whole)).toList := by
        rw [String.toList_ofList]
        rfl
      have shorter := ((agree _).mp text).2
      simp at shorter
  | rooted =>
      cases start with
      | relative => contradiction
      | rooted => simp [spelled, eq_comm]
      | network =>
          refine iff_of_false (fun agree => ?_) (by simp)
          have text : spelled .rooted whole =
              '/' :: (String.ofList (Text.joined '/' whole)).toList := by
            rw [String.toList_ofList]
            rfl
          exact absurd ((agree _).mp text).1 (by simp)

/-- The text of a path goes on from that of another one exactly if the path is contained in it, unless
a bare root is taken for another root. -/
theorem relativeTo?_contained_iff (shows : path.Shows other whole)
    (below : base.Shows start segments) :
    (∀ rest, path.relativeTo? base = some rest ↔ Contained path base rest) ↔
      ¬Conflates path base := by
  rw [shows.conflates_iff below]
  by_cases occupied : segments = []
  · subst occupied
    rw [shows.root_contains_iff below, eq_self, true_and]
  · refine iff_of_true (fun rest => ?_) fun conflates => occupied conflates.1
    rw [shows.relativeTo?_iff below occupied, shows.contained_iff below]

/-- The text that is left leads back to the path. -/
theorem leads_back (shows : path.Shows other whole) (below : base.Shows start segments)
    (free : ∀ segment ∈ whole, '\\' ∉ segment) (contained : Contained path base rest) :
    startsAtRoot rest = false ∧ (rest = "" ↔ path = base) ∧ base.join rest = path := by
  obtain ⟨rfl, more, rfl, text⟩ := (shows.contained_iff below).mp contained
  have plain : ∀ segment ∈ more, IsSegment segment := fun segment member =>
    shows.plain segment (List.mem_append_right _ member)
  have names : rest = String.ofList (Text.joined '/' more) := by rw [← text, String.ofList_toList]
  refine ⟨?_, ?_, ?_⟩
  · have head := joined_head_ne_slash plain
    simpa [startsAtRoot, text] using head
  · rw [← String.toList_eq_nil_iff, text,
      Text.joined_eq_nil fun segment member => (plain segment member).full]
    constructor
    · rintro rfl
      exact shows.unique (by simpa using below)
    · rintro rfl
      have same := shows.filter_pieces_text.symm.trans below.filter_pieces_text
      simpa using same
  · subst names
    have joined := below.join plain fun segment member =>
      free segment (List.mem_append_right _ member)
    exact joined.unique shows

/-- What is joined to a path is what the joined path has below it, but behind the network root. -/
theorem relativeTo?_join_iff (below : base.Shows start segments)
    (plain : ∀ segment ∈ more, IsSegment segment) (free : ∀ segment ∈ more, '\\' ∉ segment) :
    let text := String.ofList (Text.joined '/' more)
    (base.join text).relativeTo? base = some text ↔ base.text ≠ "//" := by
  intro text
  have shows := below.join plain free
  have contained : Contained (base.join text) base text :=
    (shows.contained_iff below).mpr ⟨rfl, more, rfl, String.toList_ofList⟩
  have contains := shows.relativeTo?_contained_iff below
  by_cases conflates : Conflates (base.join text) base
  · obtain ⟨rfl, -, network⟩ := (shows.conflates_iff below).mp conflates
    obtain rfl : start = .network := network.elim id id
    refine iff_of_false ?_ (not_not.mpr (String.toList_inj.mp below.text))
    rw [shows.relativeTo?_root_iff below]
    simp [text, spelled]
  · refine iff_of_true ((contains.mpr conflates text).mpr contained) fun slashes => conflates ?_
    have network := below.rootOf_eq
    rw [slashes] at network
    rw [shows.conflates_iff below]
    exact ⟨below.isBareRoot_iff.mp (.inr slashes), by rw [← network]; decide, .inl network.symm⟩

end Shows

theorem ne_dot_of_isAbsolute (absolute : path.isAbsolute) : path.text ≠ "." := by
  intro dot
  simp [isAbsolute, dot, isDrive] at absolute

/-- What lies below an absolute path is what has its root and its segments in front, and the text that
is left leads back from one to the other, unless a bare root is taken for another root. -/
theorem relativeTo?_iff_contained (canonical : path.Canonical) (absolute : path.isAbsolute)
    (canonicalBase : base.Canonical) (absoluteBase : base.isAbsolute) :
    ((∀ rest, path.relativeTo? base = some rest ↔ Contained path base rest) ↔
        ¬Conflates path base) ∧
      (¬Conflates path base → ∀ rest, path.relativeTo? base = some rest →
        startsAtRoot rest = false ∧ (rest = "" ↔ path = base) ∧ base.join rest = path) ∧
      ∀ names : Location, names ≠ [] →
        (∀ name ∈ names, IsSegment name.toList ∧ '\\' ∉ name.toList) →
        let text := String.ofList (Text.joined '/' (segmentsOf names))
        (base.join text).relativeTo? base = some text ↔ base.text ≠ "//" := by
  obtain ⟨other, whole, shows, free⟩ := canonical.shows (ne_dot_of_isAbsolute absolute)
  obtain ⟨start, segments, below, -⟩ := canonicalBase.shows (ne_dot_of_isAbsolute absoluteBase)
  have contains := shows.relativeTo?_contained_iff below
  refine ⟨contains, fun apart rest found => ?_, fun names _ plain => ?_⟩
  · exact shows.leads_back below free ((contains.mpr apart rest).mp found)
  · refine below.relativeTo?_join_iff (fun segment member => ?_) fun segment member => ?_
    · obtain ⟨name, inNames, rfl⟩ := List.mem_map.mp member
      exact (plain name inNames).1
    · obtain ⟨name, inNames, rfl⟩ := List.mem_map.mp member
      exact (plain name inNames).2

/-- Below a folder and below a drive what is left leads back, and of the network root one slash too
few is taken off. -/
theorem relativeTo?_iff_contained_below_roots :
    let folder : Path := ⟨"/work"⟩
    let file : Path := ⟨"/work/src/x"⟩
    let drive : Path := ⟨"C:/"⟩
    let network : Path := ⟨"//"⟩
    Contained file folder "src/x" ∧ folder.join "src/x" = file ∧
      (drive.join "x").relativeTo? drive = some "x" ∧
      ¬∀ rest, network.relativeTo? network = some rest ↔ Contained network network rest := by
  intro folder file drive network
  have found : file.relativeTo? folder = some "src/x" := by decide +kernel
  have apart : ¬Conflates file folder := by decide +kernel
  have canonical : file.Canonical ∧ folder.Canonical := by decide +kernel
  have drives : drive.Canonical := by decide +kernel
  have networks : network.Canonical := by decide +kernel
  have inside := relativeTo?_iff_contained canonical.1 (by decide) canonical.2 (by decide)
  have alone := relativeTo?_iff_contained drives (by decide) drives (by decide)
  have root := relativeTo?_iff_contained networks (by decide) networks (by decide)
  refine ⟨(inside.1.mpr apart _).mp found, (inside.2.1 apart _ found).2.2, ?_, ?_⟩
  · exact (alone.2.2 ["x"] (by simp) (by decide)).mpr (by decide)
  · exact fun agree => root.1.mp agree (by decide +kernel)

end ManifestSearch.Path
