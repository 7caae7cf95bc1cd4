import Mathlib.Data.List.TakeWhile
import ManifestSearch.Proofs.Path.Shown

/-!
Joining as reading on. A text that is joined is read on from the segments of the path, so two texts
joined one after the other leave the segments that they leave when they are joined with a slash
between them. Only the root can differ: a bare root brings its slashes along and gets no other, so
slashes in front of what is joined to it count as slashes of the root (`join_join_iff`).
-/

namespace ManifestSearch.Path

variable {path : Path} {start : Start} {segments more pieces : List (List Char)}
  {front rest text : List Char} {added first second : String}

/-! Slashes in front of a text. -/

/-- How many slashes a text starts with. -/
def leading (text : List Char) : Nat := (text.takeWhile (· = '/')).length

def OnlySlashes (text : List Char) : Prop := ∀ char ∈ text, char = '/'

instance (text : List Char) : Decidable (OnlySlashes text) :=
  inferInstanceAs (Decidable (∀ char ∈ text, char = '/'))

theorem leading_append (only : OnlySlashes front) (rest : List Char) :
    leading (front ++ rest) = front.length + leading rest := by
  have slashes : ∀ char ∈ front, decide (char = '/') = true := by simpa [OnlySlashes] using only
  rw [leading, List.takeWhile_append_of_pos slashes, List.length_append, leading]

theorem leading_of_onlySlashes (only : OnlySlashes text) : leading text = text.length := by
  simpa [leading] using leading_append only []

/-- Behind another character no slash is counted. -/
theorem leading_append_of_not (other : ¬OnlySlashes front) (rest : List Char) :
    leading (front ++ rest) = leading front := by
  have stops : (front.takeWhile (· = '/')).length ≠ front.length := by
    intro whole
    have same : front.takeWhile (· = '/') = front :=
      (List.takeWhile_prefix _).eq_of_length whole
    exact other (by simpa [OnlySlashes] using List.takeWhile_eq_self_iff.mp same)
  rw [leading, List.takeWhile_append, if_neg stops, leading]

theorem rootOf_congr (same : leading front = leading rest) : rootOf front = rootOf rest := by
  simp only [leading] at same
  simp only [rootOf, same]

theorem rootOf_eq_network : rootOf text = .network ↔ leading text = 2 := by
  rw [rootOf, leading]
  split
  · rename_i none
    simp [none]
  · rename_i two
    simp [two]
  · rename_i other
    exact iff_of_false (by simp) other

theorem rootOf_eq_relative : rootOf text = .relative ↔ leading text = 0 := by
  rw [rootOf, leading]
  split
  · rename_i none
    simp [none]
  · rename_i two
    simp [two]
  · rename_i some _
    exact iff_of_false (by simp) some

/-- Two roots are the same if both or none of them are network roots. -/
theorem rootOf_eq_iff (some : leading front ≠ 0) (others : leading rest ≠ 0) :
    rootOf front = rootOf rest ↔ (leading front = 2 ↔ leading rest = 2) := by
  rw [← rootOf_eq_network, ← rootOf_eq_network]
  rw [Ne, ← rootOf_eq_relative] at some others
  cases left : rootOf front with
  | relative => exact absurd left some
  | rooted => cases right : rootOf rest <;> simp_all
  | network => cases right : rootOf rest <;> simp_all

theorem filter_pieces_of_onlySlashes (only : OnlySlashes text) :
    (Text.pieces '/' text).filter (· ≠ []) = [] := by
  refine List.filter_eq_nil_iff.mpr fun piece member => ?_
  have empty : piece = [] := by
    refine List.eq_nil_iff_forall_not_mem.mpr fun char inside => ?_
    have slash := only char (Text.mem_of_mem_pieces member inside)
    exact Text.not_mem_of_mem_pieces member (slash ▸ inside)
  simp [empty]

/-! The text that joining reads. -/

/-- The text that is brought into the canonical spelling when a text is joined to a path. -/
def reading (path : Path) (text : String) : List Char :=
  let front := path.text.toList
  let between := if front.getLast? = some '/' then [] else ['/']
  front ++ between ++ slashed text.toList

theorem join_eq (path : Path) (text : String) :
    path.join text = ⟨String.ofList (clean (path.reading text))⟩ := rfl

theorem join_toChars (path : Path) (text : String) :
    (path.join text).text.toList = clean (path.reading text) :=
  String.toList_ofList

theorem reading_ne_nil (path : Path) (text : String) : path.reading text ≠ [] := by
  intro empty
  simp only [reading] at empty
  split at empty
  · rename_i ending
    simp_all
  · simp at empty

theorem reading_append (path : Path) (first second : String) :
    path.reading (first ++ "/" ++ second) =
      path.reading first ++ '/' :: slashed second.toList := by
  simp only [reading, String.toList_append, slashed, List.map_append, List.append_assoc]
  rfl

theorem settled_append (pieces more : List (List Char)) :
    settled (pieces ++ more) = (more.foldl keep (settled pieces).reverse).reverse := by
  simp [settled]

/-- A text that is joined is read on from the segments of the path. -/
theorem settled_reading (path : Path) (text : String) :
    settled (Text.pieces '/' (path.reading text)) =
      ((Text.pieces '/' (slashed text.toList)).foldl keep
        (settled (Text.pieces '/' path.text.toList)).reverse).reverse := by
  simp only [reading]
  split
  · rename_i ending
    obtain ⟨before, whole⟩ := List.getLast?_eq_some_iff.mp ending
    have idle : settled (Text.pieces '/' path.text.toList) =
        settled (Text.pieces '/' before) := by
      rw [whole, Text.pieces_append, settled_append]
      simp [Text.pieces, keep]
    rw [idle, whole, List.append_nil, List.append_assoc, List.singleton_append,
      Text.pieces_append, settled_append]
  · rw [List.append_assoc, List.singleton_append, Text.pieces_append, settled_append]

theorem settled_join_reading (path : Path) (first second : String) :
    settled (Text.pieces '/' ((path.join first).reading second)) =
      settled (Text.pieces '/' (path.reading (first ++ "/" ++ second))) := by
  have kept : settled (Text.pieces '/' (path.join first).text.toList) =
      settled (Text.pieces '/' (path.reading first)) := by
    rw [join_toChars]
    exact settled_spelled fun _ => isSegment_of_mem_settled
  rw [settled_reading, kept, reading_append, Text.pieces_append, settled_append]

/-- So joining in one step or in two can only differ in the root. -/
theorem join_join_iff_rootOf (path : Path) (first second : String) :
    (path.join first).join second = path.join (first ++ "/" ++ second) ↔
      rootOf ((path.join first).reading second) =
        rootOf (path.reading first ++ '/' :: slashed second.toList) := by
  have texts : (path.join first).join second = path.join (first ++ "/" ++ second) ↔
      clean ((path.join first).reading second) =
        clean (path.reading (first ++ "/" ++ second)) := by
    rw [join_eq (path.join first), join_eq path (first ++ "/" ++ second), Path.mk.injEq,
      String.ofList_inj]
  rw [texts, clean_inj, and_iff_left (settled_join_reading path first second), reading_append,
    start_eq_rootOf, start_eq_rootOf]

theorem rootOf_join (path : Path) (text : String) :
    rootOf (path.join text).text.toList = rootOf (path.reading text) := by
  rw [join_toChars, ← start_eq_rootOf, start_clean, start_eq_rootOf]

/-! Bare roots. -/

/-- A path that is no more than a root. -/
def IsBareRoot (path : Path) : Prop := path.text = "/" ∨ path.text = "//"

instance (path : Path) : Decidable path.IsBareRoot := inferInstanceAs (Decidable (_ ∨ _))

theorem isBareRoot_iff : path.IsBareRoot ↔
    path.text.toList = ['/'] ∨ path.text.toList = ['/', '/'] := by
  rw [IsBareRoot, ← String.toList_inj, ← String.toList_inj]
  rfl

/-- What has only slashes is a root. -/
theorem clean_of_onlySlashes (only : OnlySlashes text) (occupied : text ≠ []) :
    clean text = ['/'] ∨ clean text = ['/', '/'] := by
  have none : settled (Text.pieces '/' text) = [] := by
    rw [settled, ← foldl_keep_filter, filter_pieces_of_onlySlashes only]
    rfl
  obtain ⟨char, tail, rfl⟩ := List.exists_cons_of_ne_nil occupied
  obtain rfl : char = '/' := only char (by simp)
  rw [clean, none]
  cases root : Path.start ('/' :: tail) with
  | relative => exact absurd root (start_cons_slash tail)
  | rooted => exact .inl rfl
  | network => exact .inr rfl

theorem clean_ne_nil (text : List Char) : clean text ≠ [] := by
  intro empty
  have again := clean_clean text
  rw [empty] at again
  contradiction

/-- Unless joining ends at a bare root, the text that it reads has more than slashes in it. -/
theorem not_onlySlashes_reading (further : ¬(path.join first).IsBareRoot) :
    ¬OnlySlashes (path.reading first) := by
  intro only
  apply further
  rw [isBareRoot_iff, join_toChars]
  exact clean_of_onlySlashes only (reading_ne_nil path first)

theorem not_onlySlashes_join (further : ¬(path.join first).IsBareRoot) :
    ¬OnlySlashes (path.join first).text.toList := by
  intro only
  apply further
  rw [isBareRoot_iff]
  rw [join_toChars] at only ⊢
  rw [← clean_clean]
  exact clean_of_onlySlashes only (clean_ne_nil _)

/-- A root brings its slashes along and gets no other. -/
theorem leading_reading (only : OnlySlashes path.text.toList) (occupied : path.text.toList ≠ [])
    (text : String) :
    leading (path.reading text) = path.text.toList.length + leading (slashed text.toList) := by
  have ending : path.text.toList.getLast? = some '/' := by
    rw [List.getLast?_eq_some_getLast occupied, only _ (List.getLast_mem occupied)]
  simp only [reading, ending, if_true, List.append_nil]
  exact leading_append only _

theorem rootOf_reading_of_not (other : ¬OnlySlashes path.text.toList) (text : String) :
    rootOf (path.reading text) = rootOf path.text.toList := by
  simp only [reading, List.append_assoc]
  exact rootOf_congr (leading_append_of_not other _)

theorem rootOf_congr_behind (further : ¬(path.join first).IsBareRoot) (second : String) :
    rootOf ((path.join first).reading second) =
      rootOf (path.reading first ++ '/' :: slashed second.toList) := by
  rw [rootOf_reading_of_not (not_onlySlashes_join further), rootOf_join]
  exact (rootOf_congr (leading_append_of_not (not_onlySlashes_reading further) _)).symm

/-- Whether slashes in front of a text are counted as slashes of the root that it is joined to. Behind
a root that only slashes were joined to, there is one slash more to count in a single step. -/
def Merges (path : Path) (first second : String) : Prop :=
  let joined := path.join first
  let count := leading (slashed second.toList)
  joined.text = "/" ∧ (count = 1 ∨ count = 0 ∧ path.reading first = ['/']) ∨
    joined.text = "//" ∧ (0 < count ↔ path.reading first ≠ ['/', '/'])

instance (path : Path) (first second : String) : Decidable (Merges path first second) :=
  inferInstanceAs (Decidable (_ ∧ _ ∨ _ ∧ _))

theorem leading_append_slash (front rest : List Char) :
    leading (front ++ '/' :: rest) =
      if OnlySlashes front then front.length + 1 + leading rest else leading front := by
  split
  · rename_i only
    have longer : OnlySlashes (front ++ ['/']) := by
      intro char member
      exact (List.mem_append.mp member).elim (only char) List.mem_singleton.mp
    have whole := leading_append longer rest
    rwa [List.append_assoc, List.singleton_append, List.length_append,
      List.length_singleton] at whole
  · rename_i other
    exact leading_append_of_not other _

theorem eq_slashes_iff {count : Nat} :
    text = List.replicate count '/' ↔ OnlySlashes text ∧ text.length = count :=
  List.eq_replicate_iff.trans and_comm

/-- Behind a bare root, the slashes that are joined in two steps are counted from the root on, and those
that are joined in one step only if nothing but slashes stands in front of them. -/
theorem rootOf_behind_slashes {size : Nat} (either : size = 1 ∨ size = 2)
    (chars : (path.join first).text.toList = List.replicate size '/') :
    rootOf ((path.join first).reading second) =
        rootOf (path.reading first ++ '/' :: slashed second.toList) ↔
      (size + leading (slashed second.toList) = 2 ↔
        if path.reading first = List.replicate size '/' then
          size + 1 + leading (slashed second.toList) = 2 else size = 2) := by
  have only : OnlySlashes (path.join first).text.toList := (eq_slashes_iff.mp chars).1
  have length : (path.join first).text.toList.length = size := (eq_slashes_iff.mp chars).2
  have left := leading_reading only (by rw [← List.length_pos_iff]; omega) second
  have right := leading_append_slash (path.reading first) (slashed second.toList)
  have root := rootOf_join path first
  have counted := leading_of_onlySlashes only
  rw [length] at left counted
  have some : leading (path.reading first) ≠ 0 := by
    rw [Ne, ← rootOf_eq_relative, ← root, rootOf_eq_relative]
    omega
  have network : leading (path.reading first) = 2 ↔ size = 2 := by
    rw [← rootOf_eq_network, ← root, rootOf_eq_network, counted]
  by_cases slashes : OnlySlashes (path.reading first)
  · have whole := leading_of_onlySlashes slashes
    rw [if_pos slashes] at right
    rw [rootOf_eq_iff (by omega) (by omega), left, right]
    simp only [eq_slashes_iff, slashes, true_and]
    split <;> omega
  · rw [if_neg slashes] at right
    rw [rootOf_eq_iff (by omega) (by omega), left, right, network]
    simp only [eq_slashes_iff, slashes, false_and, if_false]

theorem rootOf_join_join_iff (path : Path) (first second : String) :
    rootOf ((path.join first).reading second) =
        rootOf (path.reading first ++ '/' :: slashed second.toList) ↔ ¬Merges path first second := by
  have roots : ("/" : String) ≠ "//" := by decide
  by_cases bare : (path.join first).IsBareRoot
  · rcases bare with root | root
    · have chars : (path.join first).text.toList = List.replicate 1 '/' := by rw [root]; rfl
      rw [rootOf_behind_slashes (.inl rfl) chars, List.replicate_one]
      simp only [Merges, root, roots, true_and, false_and, or_false]
      by_cases slashes : path.reading first = ['/']
      · simp only [slashes, if_true, and_true]
        omega
      · simp only [slashes, if_false, and_false, or_false]
        omega
    · have chars : (path.join first).text.toList = List.replicate 2 '/' := by rw [root]; rfl
      have two : List.replicate 2 '/' = ['/', '/'] := rfl
      rw [rootOf_behind_slashes (.inr rfl) chars, two]
      simp only [Merges, root, roots.symm, true_and, false_and, false_or]
      by_cases slashes : path.reading first = ['/', '/']
      · simp only [slashes, if_true, ne_eq, not_true_eq_false, iff_false]
        omega
      · simp only [slashes, if_false, ne_eq, not_false_eq_true, iff_true]
        omega
  · refine iff_of_true (rootOf_congr_behind bare second) ?_
    rintro (⟨root, -⟩ | ⟨root, -⟩)
    · exact bare (.inl root)
    · exact bare (.inr root)

theorem text_eq_slashes_iff (path : Path) :
    (path.text = "/" ↔ OnlySlashes path.text.toList ∧ path.text.toList.length = 1) ∧
      (path.text = "//" ↔ OnlySlashes path.text.toList ∧ path.text.toList.length = 2) := by
  rw [← eq_slashes_iff, ← eq_slashes_iff, ← String.toList_inj, ← String.toList_inj]
  exact ⟨.rfl, .rfl⟩

/-- A slash root is kept unless it is bare and slashes that are joined are counted as its own. -/
theorem rootOf_join_iff (rooted : startsAtRoot path.text) (text : String) :
    rootOf (path.join text).text.toList = rootOf path.text.toList ↔
      ¬(path.text = "/" ∧ leading (slashed text.toList) = 1 ∨
        path.text = "//" ∧ 0 < leading (slashed text.toList)) := by
  obtain ⟨single, double⟩ := text_eq_slashes_iff path
  rw [rootOf_join, single, double]
  by_cases only : OnlySlashes path.text.toList
  · have occupied : path.text.toList ≠ [] := by
      intro empty
      simp [startsAtRoot, empty] at rooted
    have some := List.length_pos_iff.mpr occupied
    have before := leading_of_onlySlashes only
    have after := leading_reading only occupied text
    rw [rootOf_eq_iff (by omega) (by omega), before, after]
    simp only [only, true_and]
    omega
  · simp only [only, false_and, or_self, not_false_eq_true, iff_true]
    exact rootOf_reading_of_not only text

/-- Two texts joined one after the other are the two joined with a slash between them, and a root of
slashes is kept, unless slashes in front of a text merge with a bare root that it is joined to. -/
theorem join_join_iff (path : Path) (first second : String) :
    ((path.join first).join second = path.join (first ++ "/" ++ second) ↔
        ¬Merges path first second) ∧
      (startsAtRoot path.text →
        (rootOf (path.join first).text.toList = rootOf path.text.toList ↔
          ¬(path.text = "/" ∧ leading (slashed first.toList) = 1 ∨
            path.text = "//" ∧ 0 < leading (slashed first.toList)))) :=
  ⟨(join_join_iff_rootOf path first second).trans (rootOf_join_join_iff path first second),
    fun rooted => rootOf_join_iff rooted first⟩

/-- A slash in front of what is joined to the root makes a network root of it. -/
theorem join_join_iff_at_roots :
    let root : Path := ⟨"/"⟩
    let below : Path := ⟨"/w"⟩
    (below.join "../..").join "x" = below.join ("../.." ++ "/" ++ "x") ∧
      rootOf (below.join "/x").text.toList = rootOf below.text.toList ∧
      (root.join "").join "x" ≠ root.join ("" ++ "/" ++ "x") ∧
      rootOf (root.join "/x").text.toList ≠ rootOf root.text.toList := by
  intro root below
  have merges : Merges root "" "x" := by decide +kernel
  refine ⟨(join_join_iff below "../.." "x").1.mpr (by decide +kernel),
    ((join_join_iff below "/x" "").2 (by decide)).mpr (by decide), ?_, ?_⟩
  · exact fun same => (join_join_iff root "" "x").1.mp same merges
  · exact fun kept => ((join_join_iff root "/x" "").2 (by decide)).mp kept (.inl (by decide))

/-! Joining to a path that shows its segments. -/

namespace Shows

theorem not_onlySlashes (shows : path.Shows start segments) (occupied : segments ≠ []) :
    ¬OnlySlashes path.text.toList := by
  intro only
  have same := filter_pieces_spelled_any shows.plain shows.shown
  rw [← shows.text, filter_pieces_of_onlySlashes only] at same
  exact occupied same.symm

theorem rootOf_eq (shows : path.Shows start segments) : rootOf path.text.toList = start := by
  rw [shows.text, ← start_eq_rootOf, start_spelled_any shows.plain]

theorem rootOf_reading (shows : path.Shows start segments) {text : String}
    (aside : segments ≠ [] ∨ leading (slashed text.toList) = 0) :
    rootOf (path.reading text) = start := by
  rw [← shows.rootOf_eq]
  by_cases occupied : segments = []
  · subst occupied
    have none : leading (slashed text.toList) = 0 := aside.resolve_left (by simp)
    have atRoot : start ≠ .relative := shows.shown.resolve_right (by simp)
    have only : OnlySlashes path.text.toList ∧ path.text.toList ≠ [] := by
      rw [shows.text]
      cases start with
      | relative => contradiction
      | rooted => simp [spelled, OnlySlashes, Text.joined]
      | network => simp [spelled, OnlySlashes, Text.joined]
    refine rootOf_congr ?_
    rw [leading_reading only.1 only.2, none, leading_of_onlySlashes only.1, Nat.add_zero]
  · exact rootOf_reading_of_not (shows.not_onlySlashes occupied) text

/-- What is joined is read on from the segments of a path, and the start is kept. -/
theorem join_toList (shows : path.Shows start segments) {text : String}
    (aside : segments ≠ [] ∨ leading (slashed text.toList) = 0) :
    (path.join text).text.toList =
      spelled start ((Text.pieces '/' (slashed text.toList)).foldl keep segments.reverse).reverse := by
  have stood : settled (Text.pieces '/' path.text.toList) = segments := by
    rw [shows.text, settled_spelled shows.plain]
  rw [join_toChars, clean, start_eq_rootOf, shows.rootOf_reading aside, settled_reading, stood]

/-- Segments are joined behind those of a path. -/
theorem join (shows : path.Shows start segments) (plain : ∀ segment ∈ more, IsSegment segment)
    (free : ∀ segment ∈ more, '\\' ∉ segment) :
    (path.join (String.ofList (Text.joined '/' more))).Shows start (segments ++ more) := by
  have noBackslash : '\\' ∉ Text.joined '/' more := by
    intro member
    rcases Text.mem_joined member with same | ⟨segment, inside, member⟩
    · simp at same
    · exact free segment inside member
  have same : slashed (String.ofList (Text.joined '/' more)).toList = Text.joined '/' more := by
    rw [String.toList_ofList, slashed_of_not_mem noBackslash]
  have head := joined_head_ne_slash plain
  have none : leading (slashed (String.ofList (Text.joined '/' more)).toList) = 0 := by
    rw [same, ← rootOf_eq_relative, ← start_eq_rootOf, start_eq_relative head]
  refine ⟨shows.shown.imp_right fun occupied => by simp [occupied], ?_, ?_⟩
  · intro segment member
    exact (List.mem_append.mp member).elim (shows.plain segment) (plain segment)
  · rw [shows.join_toList (.inr none), same, ← foldl_keep_filter, filter_pieces_joined plain,
      foldl_keep_plain plain]
    simp

end Shows

end ManifestSearch.Path
