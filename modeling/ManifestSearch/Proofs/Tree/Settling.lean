import ManifestSearch.Proofs.Tree.Below

/-!
Settling a text against resolving it. A text settles by taking back the segment in front of each
`..`; a resolution goes to the directory that holds the one it has reached. The two come to the same
where each segment that is taken back leads to a directory through no link of its own (`Retraces`),
whatever links lie in front of it.
-/

namespace ManifestSearch.Disk

open ManifestSearch.Path (Spelled IsSegment keep isDrive)

variable {disk : Disk} {base : Path} {text : String} {root : Listing} {throughLast : Bool} {links : Nat} {place : Location}
  {front back other : List Step} {kept pieces : List (List Char)} {name : String}

/-! Resolutions that go on in the same way. -/

theorem advance_congr {follow : Location → String → List Step → Except Fault Spot}
    (chased : ∀ place target rest, follow place target (rest ++ back) =
      follow place target (rest ++ other))
    (same : ∀ place, advance root throughLast follow place back =
      advance root throughLast follow place other)
    (further : back ≠ []) (otherFurther : other ≠ []) :
    advance root throughLast follow place (front ++ back) =
      advance root throughLast follow place (front ++ other) := by
  induction front generalizing place with
  | nil => exact same place
  | cons step front ih =>
      cases step with
      | stay => exact ih
      | up => exact ih
      | into name =>
          by_cases fits : name.utf8ByteSize ≤ nameLimit
          · rw [List.cons_append, List.cons_append, advance_into fits, advance_into fits]
            cases root.at? (place ++ [name]) with
            | none => simp [further, otherFurther]
            | some node =>
                cases node with
                | dir inside => exact ih
                | leaf held =>
                    cases held with
                    | file content => simp [further, otherFurther]
                    | link target => simpa [further, otherFurther] using chased place target front
          · rw [List.cons_append, List.cons_append, advance, advance, if_pos (Nat.not_le.mp fits),
              if_pos (Nat.not_le.mp fits)]

theorem travel_congr
    (same : ∀ links place, travel root throughLast links place back =
      travel root throughLast links place other)
    (further : back ≠ []) (otherFurther : other ≠ []) :
    travel root throughLast links place (front ++ back) =
      travel root throughLast links place (front ++ other) := by
  induction links generalizing place front with
  | zero =>
      have same := same 0
      simp only [travel_eq] at same ⊢
      exact advance_congr (fun _ _ _ => rfl) same further otherFurther
  | succ links ih =>
      have same := same (links + 1)
      simp only [travel_eq] at same ⊢
      refine advance_congr (fun place target rest => ?_) same further otherFurther
      simp only [chase, ← List.append_assoc]
      exact ih

theorem travel_stay : travel root throughLast links place (.stay :: back) =
    travel root throughLast links place back := by
  rw [travel_eq]
  rfl

theorem travel_up : travel root throughLast links place (.up :: back) =
    travel root throughLast links place.dropLast back := by
  rw [travel_eq]
  rfl

/-- Going down through directories follows no links. -/
theorem travel_down {names : Location} {inside : Listing}
    (here : root.at? place = some (.dir inside)) (held : isDirAt inside names)
    (fits : ∀ name ∈ names, name.utf8ByteSize ≤ nameLimit) :
    travel root throughLast links place (names.map .into ++ back) =
      travel root throughLast links (place ++ names) back := by
  induction names generalizing place inside with
  | nil => simp
  | cons name names ih =>
      obtain ⟨deeper, found⟩ := isDirAt_iff.mp held
      have step := Listing.at?_append here [name]
      obtain ⟨below, first, onward⟩ := Listing.find?_of_at?_dir found
      rw [Listing.at?_singleton, first] at step
      rw [List.map_cons, List.cons_append, travel_enter (fits name (by simp)) step,
        ih step (isDirAt_iff.mpr ⟨deeper, onward⟩) fun other member =>
          fits other (List.mem_cons_of_mem name member)]
      simp

/-! Settled steps. -/

/-- Whether a segment leads to a directory by itself, from where those in front of it lead. -/
def opens (root : Listing) (front : List (List Char)) (last : List Char) : Bool :=
  match travel root true linkLimit [] (Step.ofSegments front) with
  | .ok (.taken top) =>
      isDirAt root (top ++ [String.ofList last]) &&
        decide ((String.ofList last).utf8ByteSize ≤ nameLimit)
  | _ => false

/-- Each `..` takes back a segment that leads to a directory by itself. At the root it takes back
none, and stays there. -/
def Retraces (root : Listing) : List (List Char) → List (List Char) → Prop
  | _, [] => True
  | kept, piece :: pieces =>
      (piece = ['.', '.'] → ∀ last ∈ kept.head?,
        isDrive last = false ∧ opens root kept.tail.reverse last) ∧
      Retraces root (keep kept piece) pieces

instance decidableRetraces (root : Listing) :
    (kept pieces : List (List Char)) → Decidable (Retraces root kept pieces)
  | _, [] => .isTrue trivial
  | kept, piece :: pieces =>
      have := decidableRetraces root (keep kept piece) pieces
      inferInstanceAs (Decidable (_ ∧ _))

theorem travel_retraced {segments : List (List Char)} {last : List Char} (throughLast : Bool)
    (opened : opens root segments last) (further : back ≠ []) :
    travel root throughLast linkLimit [] (Step.ofSegments segments ++ .into (String.ofList last) :: .up :: back) =
      travel root throughLast linkLimit [] (Step.ofSegments segments ++ back) := by
  unfold opens at opened
  split at opened
  · rename_i top reached
    simp only [Bool.and_eq_true, decide_eq_true_eq] at opened
    obtain ⟨dir, fits⟩ := opened
    obtain ⟨inside, held⟩ := isDirAt_iff.mp dir
    obtain ⟨left, -, goesOn⟩ := (leads_of_travel reached).append
      (isDirAt_iff.mpr (Listing.at?_front held (by simp)))
    rw [goesOn throughLast _ (by simp), goesOn throughLast back further, travel_enter fits held,
      travel_up, List.dropLast_concat]
  · contradiction

/-- Settled steps lead where the steps of the pieces lead, as long as the way goes on. -/
theorem travel_settled (throughLast : Bool) (retraces : Retraces root kept pieces) (further : back ≠ []) :
    travel root throughLast linkLimit []
        (Step.ofSegments kept.reverse ++ (pieces.filter (· ≠ [])).map Step.ofPiece ++ back) =
      travel root throughLast linkLimit [] (Step.ofSegments (pieces.foldl keep kept).reverse ++ back) := by
  -- The segments kept so far and the pieces that are left stand for the whole text all along.
  induction pieces generalizing kept with
  | nil => simp
  | cons piece pieces ih =>
      obtain ⟨here, later⟩ := retraces
      rw [List.foldl_cons, ← ih later]
      by_cases empty : piece = []
      · simp [empty, keep]
      rw [List.filter_cons_of_pos (by simp [empty]), List.map_cons]
      by_cases dot : piece = ['.']
      · subst dot
        rw [List.append_assoc, List.append_assoc]
        exact travel_congr (fun _ _ => travel_stay) (by simp) (by simp [further])
      by_cases dots : piece = ['.', '.']
      · subst dots
        cases kept with
        | nil => simp [Step.ofSegments, Step.ofPiece, keep, travel_up]
        | cons last before =>
            obtain ⟨noDrive, opened⟩ := here rfl last rfl
            have taken : keep (last :: before) ['.', '.'] = before := by simp [keep, noDrive]
            have onward : (pieces.filter (· ≠ [])).map Step.ofPiece ++ back ≠ [] := by simp [further]
            have retraced := travel_retraced throughLast opened onward
            rw [taken]
            simpa [Step.ofSegments, Step.ofPiece] using retraced
      · have kept' : keep kept piece = piece :: kept := by simp [keep, empty, dot, dots]
        rw [kept']
        simp [Step.ofSegments, Step.ofPiece, dot, dots]

/-! Texts read from the working directory. -/

/-- The segments that a text goes on from. -/
def standing (disk : Disk) (text : String) : List (List Char) :=
  if startsAtRoot text then [] else segmentsOf disk.here

theorem standing_valid (sound : disk.Sound) (read : disk.absolute text = .ok base) :
    ∀ segment ∈ disk.standing text, IsSegment segment ∧ '\x00' ∉ segment := by
  obtain ⟨-, starts, -⟩ := absolute_ok read
  intro segment member
  rw [standing] at member
  split at member
  · simp at member
  · rename_i relative
    obtain ⟨inside, found⟩ := isDirAt_iff.mp (starts.resolve_left relative).2
    obtain ⟨name, inHere, rfl⟩ := List.mem_map.mp member
    have valid := (sound.named.at? found).1 name inHere
    exact ⟨valid.segment, valid.noNul⟩

theorem filter_pieces_fromHere (plain : ∀ segment ∈ disk.standing text, IsSegment segment) :
    (Text.pieces '/' (disk.fromHere text)).filter (· ≠ []) = disk.standing text ++
      (Text.pieces '/' text.toList).filter fun piece => piece ≠ [] ∧ piece ≠ ['.'] := by
  simp only [fromHere]
  generalize named : (Text.pieces '/' text.toList).filter
    (fun piece => piece ≠ [] ∧ piece ≠ ['.']) = parts
  have body : (Text.pieces '/' (Text.joined '/' parts)).filter (· ≠ []) = parts := by
    subst named
    refine Text.filter_pieces_joined (fun piece member => ?_) fun piece member => ?_
    · simp at member
      exact member.2.1
    · exact Text.not_mem_of_mem_pieces (List.mem_filter.mp member).1
  by_cases rooted : startsAtRoot text
  · have head : text.toList.head? = some '/' := by simpa [startsAtRoot] using rooted
    have atRoot := Path.start_ne_relative head
    rw [standing, if_pos rooted]
    cases started : Path.start text.toList with
    | relative => contradiction
    | rooted => simpa [Text.pieces] using body
    | network => simpa [Text.pieces] using body
  · have relative : Path.start text.toList = .relative :=
      Path.start_eq_relative (by simpa [startsAtRoot] using rooted)
    rw [standing, if_neg rooted] at plain ⊢
    have here := Path.filter_pieces_joined plain
    rw [relative]
    simp only [locationText]
    split
    · rename_i top
      simpa [top, segmentsOf, Text.joined, Text.pieces] using body
    · split
      · rename_i empty
        rw [empty] at body
        simpa [← body, Text.pieces, segmentsOf] using here
      · rw [List.cons_append, Text.pieces, if_pos rfl, Text.pieces_append,
          List.filter_cons_of_neg (by simp), List.filter_append, body]
        exact congrArg (· ++ parts) here

/-- The path of a text has the segments that it settles to from where it stands. -/
theorem absolute_spelled (sound : disk.Sound) (read : disk.absolute text = .ok base)
    (free : '\\' ∉ disk.fromHere text) :
    ∃ start, base.Spelled start
      ((Text.pieces '/' text.toList).foldl keep (disk.standing text).reverse).reverse := by
  obtain ⟨-, -, whole⟩ := absolute_ok read
  have plain : ∀ segment ∈ disk.standing text, IsSegment segment := fun segment member =>
    (standing_valid sound read segment member).1
  have settles : Path.settled (Text.pieces '/' (disk.fromHere text)) =
      ((Text.pieces '/' text.toList).foldl keep (disk.standing text).reverse).reverse := by
    rw [Path.settled, ← Path.foldl_keep_filter, filter_pieces_fromHere plain, List.foldl_append,
      Path.foldl_keep_plain plain, List.append_nil, Path.foldl_keep_filter_of]
    intro piece passed
    by_cases empty : piece = []
    · exact .inl empty
    · exact .inr (by simpa [empty] using passed)
  have head := disk.head_fromHere text
  rw [Path.ofText, String.toList_ofList, Path.slashed_of_not_mem free] at whole
  rw [whole, ← settles]
  exact ⟨_, Path.spelled_clean (Path.start_ne_relative head)⟩

theorem noNul_of_absolute {start : Path.Start} (sound : disk.Sound)
    (read : disk.absolute text = .ok base) (noNul : '\x00' ∉ text.toList)
    (spelling : base.Spelled start
      ((Text.pieces '/' text.toList).foldl keep (disk.standing text).reverse).reverse) :
    '\x00' ∉ base.text.toList := by
  rw [spelling.text]
  refine Path.not_mem_spelled (by decide) spelling.atRoot fun segment member inSegment => ?_
  rcases Path.mem_foldl_keep (List.mem_reverse.mp member) with stood | ⟨inText, -⟩
  · exact (standing_valid sound read segment (List.mem_reverse.mp stood)).2 inSegment
  · exact noNul (Text.mem_of_mem_pieces inText inSegment)

/-! A name in the directory of a text. -/

theorem ofText_join (occupied : text ≠ "") (plain : IsSegment name.toList) :
    Step.ofText (RawText.join text name) = Step.ofText text ++ [.into name] := by
  have last : Text.pieces '/' name.toList = [name.toList] := Text.pieces_of_not_mem plain.noSlash
  have step : Step.ofPiece name.toList = .into name := by
    simpa using Step.ofPiece_of_isSegment plain
  rw [RawText.join_of_isSegment occupied plain]
  split
  · rename_i trailing
    obtain ⟨front, whole⟩ := List.getLast?_eq_some_iff.mp trailing
    simp [Step.ofText, whole, Text.pieces_append, last, step, plain.full, Text.pieces]
  · simp [Step.ofText, Text.pieces_append, last, step, plain.full]

theorem all_join (occupied : text ≠ "") (plain : IsSegment name.toList) :
    Step.all (RawText.join text name) = Step.ofText text ++ [.into name] := by
  obtain ⟨between, whole⟩ := RawText.join_eq occupied plain
  have ending : (RawText.join text name).toList.getLast? ≠ some '/' := by
    rw [whole]
    simp only [String.toList_append, List.getLast?_append]
    rw [List.getLast?_eq_some_getLast plain.full]
    simp
    exact fun same => plain.noSlash (same ▸ List.getLast_mem plain.full)
  rw [Step.all, if_neg fun trailing => ending trailing.1, ofText_join occupied plain]

theorem startsAtRoot_join_iff (occupied : text ≠ "") (plain : IsSegment name.toList) :
    startsAtRoot (RawText.join text name) ↔ startsAtRoot text := by
  obtain ⟨between, whole⟩ := RawText.join_eq occupied plain
  obtain ⟨char, rest, first⟩ := List.exists_cons_of_ne_nil (l := text.toList) (by simpa using occupied)
  simp [startsAtRoot, whole, first]

theorem reach_join (sound : disk.Sound) (read : disk.absolute text = .ok base)
    (plain : IsSegment name.toList) (noNul : '\x00' ∉ (RawText.join text name).toList)
    (short : (RawText.join text name).utf8ByteSize < pathLimit) :
    disk.reach throughLast (RawText.join text name) = travel disk.root throughLast linkLimit []
      (Step.ofSegments (disk.standing text) ++ Step.ofText text ++ [.into name]) := by
  obtain ⟨occupied, starts, -⟩ := absolute_ok read
  by_cases rooted : startsAtRoot text
  · rw [reach_of_startsAtRoot ((startsAtRoot_join_iff occupied plain).mpr rooted) noNul short,
      all_join occupied plain, standing, if_pos rooted]
    rfl
  · obtain ⟨stays, here⟩ := starts.resolve_left rooted
    obtain ⟨inside, found⟩ := isDirAt_iff.mp here
    have fits : ∀ name ∈ disk.here, name.utf8ByteSize ≤ nameLimit := fun other member =>
      ((sound.named.at? found).1 other member).fits
    have relative := mt (startsAtRoot_join_iff occupied plain).mp rooted
    have standing : Step.ofSegments (disk.standing text) = disk.here.map .into := by
      rw [Disk.standing, if_neg rooted, Step.ofSegments_segmentsOf]
    rw [reach, reachBy, if_neg (by simpa using noNul), if_neg (RawText.join_ne_empty occupied plain),
      if_neg (Nat.not_le.mpr short), if_neg relative, if_neg (by simp [stays]), depart, if_pos here,
      all_join occupied plain, standing, List.append_assoc]
    have down : travel disk.root throughLast linkLimit []
        (disk.here.map .into ++ (Step.ofText text ++ [.into name])) =
          travel disk.root throughLast linkLimit ([] ++ disk.here) _ := travel_down rfl here fits
    exact down.symm

/-- Where a text retraces its ways, names in its directory are the same for its path. -/
theorem reach_absolute (throughLast : Bool) (sound : disk.Sound) (read : disk.absolute text = .ok base)
    (free : '\\' ∉ disk.fromHere text) (noNul : '\x00' ∉ text.toList)
    (retraces : Retraces disk.root (disk.standing text).reverse (Text.pieces '/' text.toList))
    (plain : IsSegment name.toList) (nameNoNul : '\x00' ∉ name.toList)
    (short : (RawText.join text name).utf8ByteSize < pathLimit)
    (shortBase : (RawText.join base.text name).utf8ByteSize < pathLimit) :
    disk.reach throughLast (RawText.join text name) =
      disk.reach throughLast (RawText.join base.text name) := by
  obtain ⟨start, spelling⟩ := absolute_spelled sound read free
  have longer := spelling.enter plain
  have joined {front : String} (noNulFront : '\x00' ∉ front.toList) :
      '\x00' ∉ (RawText.join front name).toList := by
    intro member
    rcases RawText.mem_join member with inFront | slash | inName
    · exact noNulFront inFront
    · simp at slash
    · exact nameNoNul inName
  rw [reach_join sound read plain (joined noNul) short,
    reach_of_startsAtRoot longer.startsAtRoot
      (joined (noNul_of_absolute sound read noNul spelling)) shortBase,
    Step.all_of_spelled longer, Step.ofSegments_append]
  have settled := travel_settled throughLast retraces (show [Step.into name] ≠ [] by simp)
  rw [List.reverse_reverse] at settled
  simpa [Step.ofSegments, Step.ofText] using settled

end ManifestSearch.Disk
