import ManifestSearch.Proofs.Path.Containment

/-!
A path as the path above it and a name. The text above a path is what stands in front of its last
slash. That is the spelling of the other segments only if it still tells their root: in front of a name
in the network root one of two slashes is left, and in front of a name behind a drive the drive without
its slash. Joining `..` instead goes up by segments, and stays at a name that is spelled like a drive.
-/

namespace ManifestSearch.Path

variable {path parent : Path} {start : Start} {segments front : List (List Char)} {last : List Char}
  {name : String}

/-! Two places where a root is lost. -/

/-- A path with one name in the network root. -/
def InNetworkRoot (path : Path) : Prop :=
  rootOf path.text.toList = .network ∧ ∃ name, path.segments = [name]

/-- A path with one name behind a drive. -/
def BehindDrive (path : Path) : Prop :=
  rootOf path.text.toList = .relative ∧
    ∃ drive name, path.segments = [drive, name] ∧ isDrive drive.toList

/-- The text in front of the last slash, where there is one; the root keeps that slash. -/
def textAbove (start : Start) (front : List (List Char)) : List Char :=
  if front = [] then ['/'] else body start front

/-- Only a drive alone is spelled longer than its segments. -/
theorem spelled_eq_body_iff (occupied : segments ≠ []) :
    spelled start segments = body start segments ↔
      ¬(start = .relative ∧ ∃ drive, segments = [drive] ∧ isDrive drive) := by
  cases start with
  | rooted => exact iff_of_true rfl (by simp)
  | network => exact iff_of_true rfl (by simp)
  | relative =>
      match segments, occupied with
      | [only], _ => simp [spelled, body, marks, Text.joined]
      | _ :: _ :: _, _ => exact iff_of_true rfl (by simp)

theorem body_concat (occupied : front ≠ []) :
    body start (front ++ [last]) = body start front ++ '/' :: last := by
  rw [body, body, Text.joined_concat occupied, List.append_assoc]

namespace Shows

theorem inNetworkRoot_iff (shows : path.Shows start (front ++ [last])) :
    path.InNetworkRoot ↔ start = .network ∧ front = [] := by
  rw [InNetworkRoot, shows.rootOf_eq, shows.segments_eq]
  cases front <;> simp

theorem behindDrive_iff (shows : path.Shows start (front ++ [last])) :
    path.BehindDrive ↔ start = .relative ∧ ∃ drive, front = [drive] ∧ isDrive drive := by
  rw [BehindDrive, shows.rootOf_eq, shows.segments_eq]
  match front with
  | [] => simp
  | [drive] => simp
  | _ :: _ :: _ => simp

theorem last_plain (shows : path.Shows start (front ++ [last])) : IsSegment last :=
  shows.plain last (by simp)

/-- The other segments have a spelling of their own. -/
theorem above (shows : path.Shows start (front ++ [last]))
    (shown : start ≠ .relative ∨ front ≠ []) :
    Shows ⟨String.ofList (spelled start front)⟩ start front :=
  ⟨shown, fun segment member => shows.plain segment (List.mem_append_left _ member),
    String.toList_ofList⟩

theorem cutLast?_trimmed (shows : path.Shows start (front ++ [last])) :
    Text.cutLast? '/' path.trimmed =
      if front ≠ [] then some (body start front, last)
      else if start = .relative then none else some ((marks start).tail, last) := by
  have noSlash := shows.last_plain.noSlash
  rw [shows.trimmed_eq (by simp)]
  by_cases alone : front = []
  · subst alone
    rw [if_neg (by simp), List.nil_append]
    cases start with
    | relative => exact Text.cutLast?_of_not_mem noSlash
    | rooted => exact Text.cutLast?_append [] noSlash
    | network => exact Text.cutLast?_append ['/'] noSlash
  · rw [if_pos alone, body_concat alone]
    exact Text.cutLast?_append _ noSlash

theorem fileName?_eq (shows : path.Shows start (front ++ [last])) :
    path.fileName? = some (String.ofList last) := by
  have plain := shows.last_plain
  have named : ¬(last = [] ∨ last = ['.']) := not_or.mpr ⟨plain.full, plain.notDot⟩
  have cut := shows.cutLast?_trimmed
  have whole := shows.trimmed_eq (by simp)
  rw [fileName?]
  split at cut
  · rw [cut]
    exact if_neg named
  · rename_i alone
    obtain rfl : front = [] := not_not.mp alone
    split at cut
    · rename_i relative
      subst relative
      rw [cut, whole]
      exact if_neg named
    · rw [cut]
      exact if_neg named

theorem of_parent? (shows : path.Shows start segments) (above : path.parent? = some parent) :
    ∃ front last, segments = front ++ [last] ∧ (start ≠ .relative ∨ front ≠ []) ∧
      parent.text.toList = textAbove start front := by
  rcases List.eq_nil_or_concat segments with rfl | ⟨front, last, rfl⟩
  · rw [parent?, shows.trimmed_of_nil] at above
    contradiction
  · rw [List.concat_eq_append] at shows ⊢
    have cut := shows.cutLast?_trimmed
    rw [parent?] at above
    split at cut
    · rename_i occupied
      have full : body start front ≠ [] := by
        intro empty
        obtain ⟨char, ending, -⟩ := (shows.above (.inr occupied)).getLast?_body occupied
        simp [empty] at ending
      refine ⟨front, last, rfl, .inr occupied, ?_⟩
      obtain ⟨char, rest, text⟩ := List.exists_cons_of_ne_nil full
      rw [cut, text] at above
      cases above
      rw [textAbove, if_neg occupied, text, String.toList_ofList]
    · rename_i alone
      obtain rfl : front = [] := not_not.mp alone
      split at cut
      · rw [cut] at above
        contradiction
      · rename_i atRoot
        refine ⟨[], last, rfl, .inl atRoot, ?_⟩
        rw [cut] at above
        cases start with
        | relative => contradiction
        | rooted => cases above; rfl
        | network => cases above; rfl

theorem settled_textAbove (shows : path.Shows start (front ++ [last])) :
    settled (Text.pieces '/' (textAbove start front)) = front := by
  rw [textAbove]
  split
  · rename_i alone
    rw [alone]
    rfl
  · rename_i occupied
    have above := shows.above (.inr occupied)
    have kept := above.filter_pieces_body occupied
    rw [settled_plain (by rw [kept]; exact above.plain), kept]

/-- The text above a path is canonical unless it is a drive without its slash. -/
theorem clean_textAbove_iff (shows : path.Shows start (front ++ [last])) :
    clean (textAbove start front) = textAbove start front ↔ ¬path.BehindDrive := by
  rw [shows.behindDrive_iff, clean, shows.settled_textAbove, textAbove]
  split
  · rename_i alone
    subst alone
    exact iff_of_true rfl (by simp)
  · rename_i occupied
    have above := shows.above (.inr occupied)
    rw [start_eq_rootOf, above.rootOf_body occupied]
    exact spelled_eq_body_iff occupied

theorem join_dots (shows : path.Shows start (front ++ [last])) :
    (path.join "..").text.toList =
      spelled start (if isDrive last then front ++ [last] else front) := by
  have back : (Text.pieces '/' (slashed "..".toList)).foldl keep (front ++ [last]).reverse =
      (if isDrive last then front ++ [last] else front).reverse := by
    have pieces : Text.pieces '/' (slashed "..".toList) = [['.', '.']] := by decide
    rw [pieces]
    cases drive : isDrive last <;> simp [keep, drive]
  rw [shows.join_toList (.inl (by simp)), back, List.reverse_reverse]

/-- Going up by segments leads to the text above a path, where the root is still told and a segment is
taken back. -/
theorem textAbove_eq_iff (shows : path.Shows start (front ++ [last]))
    (shown : start ≠ .relative ∨ front ≠ []) :
    textAbove start front = spelled start (if isDrive last then front ++ [last] else front) ↔
      ¬path.InNetworkRoot ∧ ¬path.BehindDrive ∧ ¬isDrive last := by
  split
  · rename_i drive
    refine iff_of_false (fun same => ?_) (by simp [drive])
    have longer := congrArg (fun text => settled (Text.pieces '/' text)) same
    rw [shows.settled_textAbove, settled_spelled shows.plain] at longer
    simp at longer
  · rename_i noDrive
    rw [and_iff_left noDrive, shows.inNetworkRoot_iff, shows.behindDrive_iff, textAbove]
    by_cases alone : front = []
    · subst alone
      cases start with
      | relative => simp at shown
      | rooted => simp [spelled, Text.joined]
      | network => simp [spelled, Text.joined]
    · rw [if_neg alone, eq_comm, spelled_eq_body_iff alone]
      simp [alone]

/-- The last name leads back from the text above a path, unless a single slash is left of its root. -/
theorem join_textAbove_iff (shows : path.Shows start (front ++ [last]))
    (shown : start ≠ .relative ∨ front ≠ []) (free : '\\' ∉ last)
    (text : parent.text.toList = textAbove start front) :
    parent.join (String.ofList last) = path ↔ ¬path.InNetworkRoot := by
  have plain := shows.last_plain
  rw [shows.inNetworkRoot_iff]
  by_cases alone : front = []
  · subst alone
    have root : parent.Shows .rooted [] := ⟨by simp, by simp, text⟩
    have names : ∀ segment ∈ [last], IsSegment segment := by simpa using plain
    have joined := root.join names (by simpa using free)
    rw [show Text.joined '/' [last] = last by simp [Text.joined]] at joined
    cases start with
    | relative => simp at shown
    | rooted => exact iff_of_true (joined.unique shows) (by simp)
    | network =>
        refine iff_of_false (fun same => ?_) (by simp)
        rw [same] at joined
        cases joined.rootOf_eq.symm.trans shows.rootOf_eq
  · refine iff_of_true ?_ (by simp [alone])
    obtain ⟨char, ending, other⟩ := (shows.above shown).getLast?_body alone
    have reads : parent.reading (String.ofList last) = spelled start (front ++ [last]) := by
      rw [reading, text, textAbove, if_neg alone, ending, if_neg (by simpa using other),
        String.toList_ofList, slashed_of_not_mem free, spelled_goes_on alone (by simp)]
      simp [Text.joined]
    have same : (parent.join (String.ofList last)).text.toList = path.text.toList := by
      rw [join_toChars, reads, clean_spelled_any shows.plain, shows.text]
    exact congrArg Path.mk (String.toList_inj.mp same)

end Shows

theorem getLast?_of_isDrive (drive : isDrive last) : last.getLast? = some ':' := by
  unfold isDrive at drive
  split at drive
  · rfl
  · contradiction

theorem text_ne_dot_of_parent? (above : path.parent? = some parent) : path.text ≠ "." := by
  intro dot
  have none : path.parent? = none := by
    rw [parent?, trimmed, dot]
    rfl
  rw [none] at above
  contradiction

theorem eq_iff_toList : path = parent ↔ path.text.toList = parent.text.toList := by
  rw [String.toList_inj]
  exact ⟨fun same => same ▸ rfl, congrArg Path.mk⟩

/-- The text in front of the last slash is spelled as it is, unless it is a drive. -/
theorem Canonical.parent_iff (canonical : path.Canonical) (above : path.parent? = some parent) :
    parent.Canonical ↔ ¬path.BehindDrive := by
  obtain ⟨start, segments, shows, -⟩ := canonical.shows (text_ne_dot_of_parent? above)
  obtain ⟨front, last, rfl, -, text⟩ := shows.of_parent? above
  have made : Made path := canonical ▸ Made.ofText path.text
  have noBackslash := (made.parent above).noBackslash
  rw [← shows.clean_textAbove_iff, Canonical, ofText, slashed_of_not_mem noBackslash, eq_iff_toList,
    String.toList_ofList, text]

/-- A name is entered behind a canonical text only. A text that ends in a colon is left aside: a drive
alone is spelled with a slash. -/
theorem canonical_of_join {char : Char} (ending : path.text.toList.getLast? = some char)
    (noSlash : char ≠ '/') (noColon : char ≠ ':') (plain : IsSegment name.toList)
    (canonical : Canonical ⟨RawText.join path.text name⟩) : path.Canonical := by
  have occupied : path.text ≠ "" := fun empty => by simp [empty] at ending
  have unended : path.text.toList.getLast? ≠ some '/' := by simp [ending, noSlash]
  have whole : (RawText.join path.text name).toList = path.text.toList ++ '/' :: name.toList := by
    rw [RawText.join_of_isSegment occupied plain, if_neg unended]
    simp
  obtain ⟨final, closing, other⟩ := plain.getLast?_append (path.text.toList ++ ['/'])
  rw [← List.append_cons, ← whole] at closing
  have above : Path.parent? ⟨RawText.join path.text name⟩ = some path := by
    obtain ⟨first, rest, text⟩ := List.exists_cons_of_ne_nil fun empty =>
      occupied (String.toList_inj.mp empty)
    rw [parent?, trimmed, Text.dropEnd_of_getLast? closing (by simpa using other), whole,
      Text.cutLast?_append _ plain.noSlash, text]
    exact congrArg some (eq_iff_toList.mpr (by rw [String.toList_ofList, text]))
  refine (canonical.parent_iff above).mpr fun behind => ?_
  obtain ⟨start, segments, shows, -⟩ := canonical.shows (text_ne_dot_of_parent? above)
  obtain ⟨front, last, rfl, -, text⟩ := shows.of_parent? above
  obtain ⟨rfl, drive, rfl, spelled⟩ := shows.behindDrive_iff.mp behind
  have alone : path.text.toList = drive := by simpa [textAbove, body, marks, Text.joined] using text
  rw [alone, getLast?_of_isDrive spelled] at ending
  exact noColon (Option.some.inj ending).symm

/-- A path is decomposed into the path above it and its name, unless the cut takes a slash that tells
the root; and going up leads to the path above, unless the name is spelled like a drive, too. -/
theorem parent_and_name_iff (canonical : path.Canonical) (above : path.parent? = some parent)
    (named : path.fileName? = some name) :
    (parent.Canonical ↔ ¬path.BehindDrive) ∧
      (parent = path.join ".." ↔
        ¬path.InNetworkRoot ∧ ¬path.BehindDrive ∧ ¬isDrive name.toList) ∧
      (parent.join name = path ↔ ¬path.InNetworkRoot) := by
  obtain ⟨start, segments, shows, free⟩ := canonical.shows (text_ne_dot_of_parent? above)
  obtain ⟨front, last, rfl, shown, text⟩ := shows.of_parent? above
  obtain rfl : String.ofList last = name := Option.some.inj (shows.fileName?_eq.symm.trans named)
  refine ⟨canonical.parent_iff above, ?_, shows.join_textAbove_iff shown (free last (by simp)) text⟩
  rw [eq_iff_toList, text, shows.join_dots, shows.textAbove_eq_iff shown, String.toList_ofList]

/-- What is above a name behind a drive is not canonical, and above a name in the network root there is
another root. -/
theorem parent_and_name_iff_at_roots :
    let file : Path := ⟨"/a/b"⟩
    let drive : Path := ⟨"C:/x"⟩
    let network : Path := ⟨"//x"⟩
    (file.parent? = some ⟨"/a"⟩ ∧ ⟨"/a"⟩ = file.join ".." ∧ Path.join ⟨"/a"⟩ "b" = file) ∧
      (drive.parent? = some ⟨"C:"⟩ ∧ ¬Canonical ⟨"C:"⟩) ∧
      network.parent? = some ⟨"/"⟩ ∧ Path.join ⟨"/"⟩ "x" ≠ network := by
  intro file drive network
  have apart : ¬file.InNetworkRoot := fun lost => absurd lost.1 (by decide +kernel)
  have rooted : ¬file.BehindDrive := fun lost => absurd lost.1 (by decide +kernel)
  have behind : drive.BehindDrive := ⟨by decide, "C:", "x", by decide +kernel, by decide⟩
  have lost : network.InNetworkRoot := ⟨by decide, "x", by decide +kernel⟩
  have aboveFile : file.parent? = some ⟨"/a"⟩ := by decide +kernel
  have aboveDrive : drive.parent? = some ⟨"C:"⟩ := by decide +kernel
  have aboveNetwork : network.parent? = some ⟨"/"⟩ := by decide +kernel
  have named : file.fileName? = some "b" := by decide +kernel
  have namedDrive : drive.fileName? = some "x" := by decide +kernel
  have namedNetwork : network.fileName? = some "x" := by decide +kernel
  have whole := parent_and_name_iff (by decide +kernel) aboveFile named
  have cut := parent_and_name_iff (by decide +kernel) aboveDrive namedDrive
  have single := parent_and_name_iff (by decide +kernel) aboveNetwork namedNetwork
  refine ⟨⟨aboveFile, ?_, whole.2.2.mpr apart⟩, ⟨aboveDrive, ?_⟩, aboveNetwork, ?_⟩
  · exact whole.2.1.mpr ⟨apart, rooted, by decide⟩
  · exact fun canonical => cut.1.mp canonical behind
  · exact fun same => single.2.2.mp same lost

end ManifestSearch.Path
