import ManifestSearch.Proofs.Tree.Resolution

/-!
What texts below a directory name. A text that goes on from the text of a directory is resolved
from that directory, whatever links led there, so it names what the tree holds at those names. Where
no link leads to a directory, only the directories of the tree are directories.
-/

namespace ManifestSearch

open ManifestSearch.Path (Spelled IsSegment Start)

variable {disk : Disk} {base path : Path} {start : Start} {segments : List (List Char)}
  {inside : Listing} {names : Location} {node : Node}

namespace Step

/-- The steps that go down through segments. -/
def ofSegments (segments : List (List Char)) : List Step :=
  segments.map fun segment => .into (String.ofList segment)

theorem ofSegments_append (front back : List (List Char)) :
    ofSegments (front ++ back) = ofSegments front ++ ofSegments back :=
  List.map_append

theorem ofSegments_segmentsOf (names : Location) : ofSegments (segmentsOf names) = names.map .into := by
  simp [ofSegments, segmentsOf, Function.comp_def]

theorem ofPiece_of_isSegment {segment : List Char} (plain : IsSegment segment) :
    ofPiece segment = .into (String.ofList segment) := by
  simp [ofPiece, plain.notDot, plain.notDots]

theorem ofText_of_spelled (spelling : path.Spelled start segments) :
    ofText path.text = ofSegments segments := by
  rw [ofText, spelling.text, Path.filter_pieces_spelled spelling.atRoot spelling.plain]
  exact List.map_congr_left fun segment member => ofPiece_of_isSegment (spelling.plain segment member)

/-- Only a root ends in a slash. -/
theorem not_trailing_of_spelled (spelling : path.Spelled start segments) :
    ¬(path.text.toList.getLast? = some '/' ∧ ofText path.text ≠ []) := by
  intro holds
  obtain ⟨trailing, occupied⟩ := holds
  have some : segments ≠ [] := fun none => occupied (by rw [ofText_of_spelled spelling, none]; rfl)
  obtain ⟨char, ending, other⟩ :=
    Path.getLast?_spelled_ne_slash spelling.atRoot some spelling.plain
  rw [spelling.text, ending, Option.some.injEq] at trailing
  exact other trailing

theorem all_of_spelled (spelling : path.Spelled start segments) :
    all path.text = ofSegments segments := by
  rw [all, if_neg (not_trailing_of_spelled spelling), ofText_of_spelled spelling]

end Step

namespace RawText

theorem startsAtRoot_join {front : String} (rooted : startsAtRoot front) (name : String) :
    startsAtRoot (join front name) := by
  unfold join
  split
  · rename_i alone
    rcases alone with named | empty
    · exact named
    · simp [empty, startsAtRoot] at rooted
  · have head : front.toList.head? = some '/' := by simpa [startsAtRoot] using rooted
    split
    · simp [startsAtRoot, head]
    · simp [startsAtRoot, head]

theorem mem_join {front name : String} {char : Char} (member : char ∈ (join front name).toList) :
    char ∈ front.toList ∨ char = '/' ∨ char ∈ name.toList := by
  unfold join at member
  split at member
  · exact .inr (.inr member)
  · split at member
    · rw [String.toList_append, List.mem_append] at member
      exact member.imp_right .inr
    · simp only [String.toList_append, List.mem_append] at member
      rcases member with (member | member) | member
      · exact .inl member
      · exact .inr (.inl (by simpa using member))
      · exact .inr (.inr member)

theorem mem_descend {front : String} {char : Char} (member : char ∈ (descend front names).toList) :
    char ∈ front.toList ∨ char = '/' ∨ ∃ name ∈ names, char ∈ name.toList := by
  induction names generalizing front with
  | nil => exact .inl member
  | cons name names ih =>
      rcases ih member with inFront | slash | ⟨other, held, inOther⟩
      · rcases mem_join inFront with inFront | slash | inName
        · exact .inl inFront
        · exact .inr (.inl slash)
        · exact .inr (.inr ⟨name, by simp, inName⟩)
      · exact .inr (.inl slash)
      · exact .inr (.inr ⟨other, List.mem_cons_of_mem name held, inOther⟩)

theorem descend_append (text : String) (front back : Location) :
    descend text (front ++ back) = descend (descend text front) back :=
  List.foldl_append

theorem join_eq {front name : String} (occupied : front ≠ "") (plain : IsSegment name.toList) :
    ∃ between, join front name = front ++ between ++ name := by
  rw [join_of_isSegment occupied plain]
  split
  · exact ⟨"", by simp⟩
  · exact ⟨"/", rfl⟩

theorem join_ne_empty {front name : String} (occupied : front ≠ "")
    (plain : IsSegment name.toList) : join front name ≠ "" := by
  obtain ⟨between, whole⟩ := join_eq occupied plain
  simp [whole, occupied]

theorem le_size_descend {text : String} (occupied : text ≠ "")
    (plain : ∀ name ∈ names, IsSegment name.toList) :
    text.utf8ByteSize + names.length ≤ (descend text names).utf8ByteSize := by
  induction names generalizing text with
  | nil => exact Nat.le_refl _
  | cons name names ih =>
      have first := plain name (by simp)
      obtain ⟨between, whole⟩ := join_eq occupied first
      have size : (join text name).utf8ByteSize =
          text.utf8ByteSize + between.utf8ByteSize + name.utf8ByteSize := by
        rw [whole, String.utf8ByteSize_append, String.utf8ByteSize_append]
      have full : name.utf8ByteSize ≠ 0 := fun empty => first.full (by
        rw [String.utf8ByteSize_eq_zero_iff.mp empty]
        rfl)
      have further := ih (join_ne_empty occupied first) fun other member =>
        plain other (List.mem_cons_of_mem name member)
      change _ ≤ (descend (join text name) names).utf8ByteSize
      rw [List.length_cons]
      omega

/-- Entering names of one size adds as much each time, with a slash. -/
theorem size_descend {text : String} {size : Nat} (occupied : text ≠ "")
    (goesOn : text.toList.getLast? ≠ some '/') (plain : ∀ name ∈ names, IsSegment name.toList)
    (sized : ∀ name ∈ names, name.utf8ByteSize = size) :
    (descend text names).utf8ByteSize = text.utf8ByteSize + names.length * (1 + size) := by
  induction names generalizing text with
  | nil => simp [descend]
  | cons name names ih =>
      have first := plain name (by simp)
      have joined : join text name = text ++ "/" ++ name := by
        rw [join_of_isSegment occupied first, if_neg goesOn]
      have grown : (join text name).utf8ByteSize = text.utf8ByteSize + (1 + size) := by
        rw [joined, String.utf8ByteSize_append, String.utf8ByteSize_append, Nat.add_assoc,
          sized name (by simp)]
        rfl
      have still : (join text name).toList.getLast? ≠ some '/' := by
        obtain ⟨char, ending, other⟩ := first.getLast?_append (text ++ "/").toList
        rw [joined, String.toList_append, ending]
        simp [other]
      have further := ih (join_ne_empty occupied first) still
        (fun other member => plain other (List.mem_cons_of_mem name member))
        fun other member => sized other (List.mem_cons_of_mem name member)
      change (descend (join text name) names).utf8ByteSize = _
      rw [further, grown, List.length_cons, Nat.succ_mul]
      omega

theorem subset_descend {text : String} (occupied : text ≠ "")
    (plain : ∀ name ∈ names, IsSegment name.toList) :
    text.toList ⊆ (descend text names).toList ∧
      ∀ name ∈ names, name.toList ⊆ (descend text names).toList := by
  induction names generalizing text with
  | nil => exact ⟨List.Subset.refl _, by simp⟩
  | cons name names ih =>
      have first := plain name (by simp)
      obtain ⟨between, whole⟩ := join_eq occupied first
      obtain ⟨front, others⟩ := ih (join_ne_empty occupied first) fun other member =>
        plain other (List.mem_cons_of_mem name member)
      have entered : descend text (name :: names) = descend (text ++ between ++ name) names := by
        rw [← whole]
        rfl
      rw [whole] at front others
      rw [String.toList_append, String.toList_append] at front
      have inFront := List.append_subset.mp front
      rw [entered]
      refine ⟨(List.append_subset.mp inFront.1).1, ?_⟩
      intro other member
      rcases List.mem_cons.mp member with rfl | member
      · exact inFront.2
      · exact others other member

end RawText

namespace Disk

/-- What is read from the working directory starts at the root. -/
theorem head_fromHere (disk : Disk) (text : String) : (disk.fromHere text).head? = some '/' := by
  simp only [fromHere, locationText]
  split
  · rfl
  · rfl
  · split
    · rfl
    · split <;> rfl

theorem absolute_ok {text : String} (read : disk.absolute text = .ok base) :
    text ≠ "" ∧ (startsAtRoot text ∨ disk.adrift = false ∧ isDirAt disk.root disk.here) ∧
      base = Path.ofText (String.ofList (disk.fromHere text)) := by
  rw [absolute] at read
  split at read
  · contradiction
  · rename_i occupied
    split at read
    · rename_i starts
      cases read
      exact ⟨occupied, by simpa using starts, rfl⟩
    · contradiction

theorem fromHere_of_spelled (spelling : path.Spelled start segments) :
    disk.fromHere path.text = path.text.toList := by
  have kept : (Text.pieces '/' path.text.toList).filter (fun piece => piece ≠ [] ∧ piece ≠ ['.']) =
      segments := by
    have named := Path.filter_pieces_spelled spelling.atRoot spelling.plain
    rw [← spelling.text] at named
    refine (List.filter_congr fun piece member => ?_).trans named
    by_cases empty : piece = []
    · simp [empty]
    · have plain : IsSegment piece :=
        spelling.plain piece (named ▸ List.mem_filter.mpr ⟨member, by simpa using empty⟩)
      simp [empty, plain.notDot]
  have started : Path.start path.text.toList = start := by
    rw [spelling.text, Path.start_spelled spelling.atRoot spelling.plain]
  have atRoot := spelling.atRoot
  simp only [fromHere, kept, started]
  rw [spelling.text]
  cases start with
  | relative => contradiction
  | rooted => rfl
  | network => rfl

/-- What is canonical and begins at the root is read as it is. -/
theorem absolute_of_grounded (disk : Disk) (grounded : path.Grounded) :
    disk.absolute path.text = .ok path := by
  obtain ⟨start, segments, spelling, -⟩ := grounded.spelled
  rw [absolute, if_neg spelling.text_ne_empty, if_pos (.inl grounded.2), fromHere_of_spelled spelling,
    String.ofList_toList]
  exact congrArg Except.ok grounded.1

theorem reach_of_startsAtRoot {text : String} (rooted : startsAtRoot text)
    (noNul : '\x00' ∉ text.toList) (short : text.utf8ByteSize < pathLimit) (throughLast : Bool) :
    disk.reach throughLast text = travel disk.root throughLast linkLimit [] (Step.all text) := by
  have occupied : text ≠ "" := by
    intro same
    subst same
    simp [startsAtRoot] at rooted
  rw [reach, reachBy, if_neg (by simpa using noNul), if_neg occupied,
    if_neg (Nat.not_le.mpr short), if_pos rooted]
  rfl

theorem reach_ok {throughLast : Bool} {text : String} {spot : Spot} (rooted : startsAtRoot text)
    (reached : disk.reach throughLast text = .ok spot) :
    '\x00' ∉ text.toList ∧ text.utf8ByteSize < pathLimit ∧
      Leads disk.root throughLast linkLimit [] (Step.all text) spot := by
  rw [reach, reachBy] at reached
  split at reached
  · contradiction
  · rename_i noNul
    split at reached
    · contradiction
    · split at reached
      · contradiction
      · rename_i short
        exact ⟨by simpa using noNul, by omega, leads_of_travel reached⟩

theorem node_ok {throughLast : Bool} {text : String} (rooted : startsAtRoot text)
    (found : disk.node throughLast text = .ok node) :
    ∃ place, disk.reach throughLast text = .ok (.taken place) ∧
      disk.root.at? place = some node := by
  rw [Disk.node] at found
  split at found
  · contradiction
  · contradiction
  · rename_i reached
    obtain ⟨-, -, leads⟩ := reach_ok rooted reached
    generalize drifted : Spot.adrift = spot at leads
    exact absurd drifted leads.ne_adrift.symm
  · rename_i place reached
    split at found
    · rename_i held
      cases found
      exact ⟨place, reached, held⟩
    · contradiction

theorem node_of_reach {throughLast : Bool} {text : String} {place : Location}
    (reached : disk.reach throughLast text = .ok (.taken place))
    (held : disk.root.at? place = some node) : disk.node throughLast text = .ok node := by
  simp only [Disk.node, reached, held]

theorem short_of_node {throughLast : Bool} {text : String} (rooted : startsAtRoot text)
    (found : disk.node throughLast text = .ok node) : text.utf8ByteSize < pathLimit := by
  obtain ⟨place, reached, -⟩ := node_ok rooted found
  exact (reach_ok rooted reached).2.1

theorem short_of_read {text content : String} (rooted : startsAtRoot text)
    (reads : disk.read text = .ok content) : text.utf8ByteSize < pathLimit := by
  rw [read] at reads
  split at reads
  · contradiction
  · rename_i found
    exact short_of_node rooted found
  · contradiction
  · contradiction

theorem short_of_isFile {text : String} (rooted : startsAtRoot text) (named : disk.isFile text) :
    text.utf8ByteSize < pathLimit := by
  rw [isFile] at named
  split at named
  · rename_i found
    exact short_of_node rooted found
  · contradiction

/-- Names lead from the root to a file, one behind the other and through links on the way. -/
def LeadsToFile (disk : Disk) (names : Location) : Prop :=
  ∃ ending content, Leads disk.root true linkLimit [] (names.map .into) (.taken ending) ∧
    disk.root.at? ending = some (.leaf (.file content))

/-- A path names a file if it can be opened and its segments lead to one. -/
theorem isFile_iff_of_spelled (spelling : path.Spelled start segments)
    (noNul : '\x00' ∉ path.text.toList) :
    disk.isFile path.text ↔
      path.text.utf8ByteSize < pathLimit ∧ disk.LeadsToFile (segments.map String.ofList) := by
  have rooted := spelling.startsAtRoot
  have steps : Step.all path.text = (segments.map String.ofList).map .into := by
    rw [Step.all_of_spelled spelling, Step.ofSegments, List.map_map]
    rfl
  constructor
  · intro named
    rw [isFile] at named
    split at named
    · rename_i content found
      obtain ⟨place, reached, held⟩ := node_ok rooted found
      obtain ⟨-, short, leads⟩ := reach_ok rooted reached
      exact ⟨short, place, content, steps ▸ leads, held⟩
    · contradiction
  · intro holds
    obtain ⟨short, place, content, leads, held⟩ := holds
    have reached : disk.reach true path.text = .ok (.taken place) := by
      rw [reach_of_startsAtRoot rooted noNul short, steps, leads.travel]
    rw [isFile, node_of_reach reached held]

/-- Paths below a directory are resolved from it, with the links that are left. -/
theorem reach_onward {top : Location} (spelling : base.Spelled start segments)
    (reached : disk.reach true base.text = .ok (.taken top)) (dir : isDirAt disk.root top) :
    ∃ left ≤ linkLimit, ∀ throughLast path other more, Spelled path other (segments ++ more) →
      more ≠ [] → '\x00' ∉ path.text.toList → path.text.utf8ByteSize < pathLimit →
      disk.reach throughLast path.text =
        travel disk.root throughLast left top (Step.ofSegments more) := by
  obtain ⟨-, -, leads⟩ := reach_ok spelling.startsAtRoot reached
  obtain ⟨left, bound, goesOn⟩ := leads.append dir
  refine ⟨left, bound, fun throughLast path other more further occupied noNul short => ?_⟩
  rw [reach_of_startsAtRoot further.startsAtRoot noNul short, Step.all_of_spelled further,
    Step.ofSegments_append, ← Step.all_of_spelled spelling]
  exact goesOn throughLast _ (by simpa [Step.ofSegments] using occupied)

/-- Texts below a directory are resolved from it, with the links that are left. -/
theorem reach_descend_onward {top : Location} (spelling : base.Spelled start segments)
    (reached : disk.reach true base.text = .ok (.taken top)) (dir : isDirAt disk.root top) :
    ∃ left ≤ linkLimit, ∀ throughLast names, names ≠ [] → (∀ name ∈ names, IsSegment name.toList) →
      (∀ name ∈ names, '\x00' ∉ name.toList) →
      (RawText.descend base.text names).utf8ByteSize < pathLimit →
      disk.reach throughLast (RawText.descend base.text names) =
        travel disk.root throughLast left top (names.map .into) := by
  obtain ⟨noNul, -, -⟩ := reach_ok spelling.startsAtRoot reached
  obtain ⟨left, bound, goesOn⟩ := reach_onward spelling reached dir
  refine ⟨left, bound, fun throughLast names occupied plain freeNames short => ?_⟩
  have freeOfNul : '\x00' ∉ (RawText.descend base.text names).toList := by
    intro member
    rcases RawText.mem_descend member with member | slash | ⟨name, held, member⟩
    · exact noNul member
    · simp at slash
    · exact freeNames name held member
  have onward := goesOn throughLast _ _ _ (spelling.descend plain)
    (by simpa [segmentsOf] using occupied) freeOfNul short
  rw [onward, Step.ofSegments_segmentsOf]

theorem reach_descend (spelling : base.Spelled start segments)
    (found : disk.node true base.text = .ok (.dir inside)) :
    ∃ top, ∃ left ≤ linkLimit, disk.root.at? top = some (.dir inside) ∧
      ∀ throughLast names, names ≠ [] → (∀ name ∈ names, IsSegment name.toList) →
        (∀ name ∈ names, '\x00' ∉ name.toList) →
        (RawText.descend base.text names).utf8ByteSize < pathLimit →
        disk.reach throughLast (RawText.descend base.text names) =
          travel disk.root throughLast left top (names.map .into) := by
  obtain ⟨top, reached, held⟩ := node_ok spelling.startsAtRoot found
  obtain ⟨left, bound, goesOn⟩ :=
    reach_descend_onward spelling reached (isDirAt_iff.mpr ⟨inside, held⟩)
  exact ⟨top, left, bound, held, goesOn⟩

theorem travel_names {root : Listing} {throughLast : Bool} {links : Nat} {top : Location}
    (valid : ∀ name ∈ names, IsEntryName name) (here : root.at? top = some (.dir inside))
    (held : inside.at? names = some node)
    (kind : throughLast = true → ∀ target, node ≠ .leaf (.link target)) :
    travel root throughLast links top (names.map .into) = .ok (.taken (top ++ names)) := by
  induction names generalizing top inside with
  | nil =>
      rw [List.append_nil]
      exact Leads.arrive.travel
  | cons name names ih =>
      have fits := (valid name (by simp)).fits
      have step := Listing.at?_append here [name]
      rw [Listing.at?_cons] at held
      cases first : inside.find? name with
      | none => simp [first] at held
      | some next =>
          rw [Listing.at?_singleton, first] at step
          cases next with
          | dir below =>
              simp only [first, Option.bind_some] at held
              rw [List.map_cons, travel_enter fits step,
                ih (fun other member => valid other (List.mem_cons_of_mem name member)) step held]
              simp
          | leaf leaf =>
              simp only [first, Option.bind_some, Option.ite_none_right_eq_some,
                Option.some.injEq] at held
              obtain ⟨rfl, rfl⟩ := held
              cases leaf with
              | file content => exact (Leads.file fits step).travel
              | link target =>
                  cases throughLast with
                  | false => exact (Leads.halt fits step rfl).travel
                  | true => exact absurd rfl (kind rfl target)

/-- A text below a directory names what the tree holds there. -/
theorem node_descend {throughLast : Bool} (spelling : base.Spelled start segments)
    (found : disk.node true base.text = .ok (.dir inside)) (occupied : names ≠ [])
    (valid : ∀ name ∈ names, IsEntryName name)
    (short : (RawText.descend base.text names).utf8ByteSize < pathLimit)
    (held : inside.at? names = some node)
    (kind : throughLast = true → ∀ target, node ≠ .leaf (.link target)) :
    disk.node throughLast (RawText.descend base.text names) = .ok node := by
  obtain ⟨top, left, -, here, reached⟩ := reach_descend spelling found
  have placed : disk.root.at? (top ++ names) = some node := (Listing.at?_append here names).trans held
  refine node_of_reach ?_ placed
  rw [reached throughLast names occupied (fun name member => (valid name member).segment)
    (fun name member => (valid name member).noNul) short]
  exact travel_names valid here held kind

theorem at?_of_leads_names {root : Listing} {links : Nat} {top ending : Location}
    (here : root.at? top = some (.dir inside))
    (leads : Leads root true links top (names.map .into) (.taken ending))
    (dir : isDirAt root ending) :
    (∃ below, inside.at? names = some (.dir below)) ∨
      ∃ front back target, names = front ++ back ∧
        inside.at? front = some (.leaf (.link target)) := by
  induction names generalizing top inside with
  | nil => exact .inl ⟨inside, rfl⟩
  | cons name names ih =>
      have step := Listing.at?_append here [name]
      rcases leads.enters dir with ⟨below, held, onward⟩ | ⟨target, held⟩
      · have first := (Listing.at?_singleton inside name).symm.trans (step.symm.trans held)
        rcases ih held onward with ⟨last, found⟩ | ⟨front, back, target, rfl, link⟩
        · exact .inl ⟨last, by rw [Listing.at?_cons, first]; exact found⟩
        · exact .inr ⟨name :: front, back, target, rfl, by rw [Listing.at?_cons, first]; exact link⟩
      · exact .inr ⟨[name], names, target, rfl, step.symm.trans held⟩

theorem reach_of_isDir {text : String} (rooted : startsAtRoot text) (dir : disk.isDir text) :
    ∃ ending, disk.reach true text = .ok (.taken ending) ∧ isDirAt disk.root ending ∧
      '\x00' ∉ text.toList ∧ text.utf8ByteSize < pathLimit := by
  unfold isDir at dir
  split at dir
  · rename_i below named
    obtain ⟨ending, reached, held⟩ := node_ok rooted named
    obtain ⟨noNul, short, -⟩ := reach_ok rooted reached
    exact ⟨ending, reached, isDirAt_iff.mpr ⟨below, held⟩, noNul, short⟩
  · contradiction

/-- What a directory is reached through is a directory by its text. -/
theorem isDir_front {front back : Location} (spelling : base.Spelled start segments)
    (found : disk.node true base.text = .ok (.dir inside)) (occupied : front ≠ [])
    (plain : ∀ name ∈ front ++ back, IsSegment name.toList)
    (dir : disk.isDir (RawText.descend base.text (front ++ back))) :
    disk.isDir (RawText.descend base.text front) := by
  by_cases last : back = []
  · simpa [last] using dir
  have plainFront : ∀ name ∈ front, IsSegment name.toList := fun name member =>
    plain name (by simp [member])
  have plainBack : ∀ name ∈ back, IsSegment name.toList := fun name member =>
    plain name (by simp [member])
  obtain ⟨ending, reached, -, noNul, short⟩ :=
    reach_of_isDir (spelling.descend plain).startsAtRoot dir
  have freeNames : ∀ name ∈ front ++ back, '\x00' ∉ name.toList := fun name member inName =>
    noNul ((RawText.subset_descend spelling.text_ne_empty plain).2 name member inName)
  obtain ⟨top, left, -, here, goesOn⟩ := reach_descend spelling found
  have whole := goesOn true (front ++ back) (by simp [occupied]) plain freeNames short
  have leads := leads_of_travel (whole.symm.trans reached)
  rw [List.map_append] at leads
  obtain ⟨middle, first, middleDir⟩ :=
    leads.leading (by simpa using last) (isDirAt_iff.mpr ⟨inside, here⟩)
  obtain ⟨deeper, held⟩ := isDirAt_iff.mp middleDir
  -- The text so far is no longer than the whole, so it can be resolved too.
  have shortFront : (RawText.descend base.text front).utf8ByteSize < pathLimit := by
    have filled : RawText.descend base.text front ≠ "" :=
      (spelling.descend plainFront).text_ne_empty
    have size := RawText.le_size_descend filled plainBack
    rw [← RawText.descend_append] at size
    exact Nat.lt_of_le_of_lt (Nat.le_add_right _ _) (Nat.lt_of_le_of_lt size short)
  have arrives := (goesOn true front occupied plainFront
    (fun name member => freeNames name (by simp [member])) shortFront).trans first.travel
  simp only [isDir, node_of_reach arrives held]

def NoDirLinks (disk : Disk) (above : String) (inside : Listing) : Prop :=
  ∀ names target, inside.at? names = some (.leaf (.link target)) →
    ¬disk.isDir (RawText.descend above names)

/-- Nothing is a file that would lie below a missing entry. -/
theorem not_isFile_of_missing {name : String} (spelling : base.Spelled start segments)
    (found : disk.node true base.text = .ok (.dir inside)) (missing : inside.find? name = none)
    (plain : ∀ other ∈ name :: names, IsSegment other.toList) (further : names ≠ []) :
    ¬disk.isFile (RawText.descend base.text (name :: names)) := by
  intro file
  unfold isFile at file
  split at file
  · rename_i content named
    obtain ⟨place, reached, -⟩ := node_ok (spelling.descend plain).startsAtRoot named
    obtain ⟨noNul, short, -⟩ := reach_ok (spelling.descend plain).startsAtRoot reached
    have freeNames : ∀ other ∈ name :: names, '\x00' ∉ other.toList := fun other member inName =>
      noNul ((RawText.subset_descend spelling.text_ne_empty plain).2 other member inName)
    obtain ⟨top, left, -, here, goesOn⟩ := reach_descend spelling found
    have absent : disk.root.at? (top ++ [name]) = none := by
      rw [Listing.at?_append here, Listing.at?_singleton, missing]
    have leads := leads_of_travel
      ((goesOn true _ (by simp) plain freeNames short).symm.trans reached)
    rw [List.map_cons] at leads
    generalize rest : names.map Step.into = steps at leads
    cases leads with
    | file fits held => simp [further] at rest
    | halt fits held last => contradiction
    | enter fits held onward => simp [absent] at held
    | follow fits held inner onward => simp [absent] at held
  · contradiction

/-- What is a directory by its text is one in the tree, or a link lies on the way to it. -/
theorem dir_or_link_of_isDir (spelling : base.Spelled start segments)
    (found : disk.node true base.text = .ok (.dir inside))
    (plain : ∀ name ∈ names, IsSegment name.toList)
    (dir : disk.isDir (RawText.descend base.text names)) :
    (∃ below, inside.at? names = some (.dir below)) ∨
      ∃ front back target, names = front ++ back ∧
        inside.at? front = some (.leaf (.link target)) := by
  by_cases empty : names = []
  · subst empty
    exact .inl ⟨inside, rfl⟩
  obtain ⟨ending, reached, endingDir, noNul, short⟩ :=
    reach_of_isDir (spelling.descend plain).startsAtRoot dir
  have freeNames : ∀ name ∈ names, '\x00' ∉ name.toList := fun name member inName =>
    noNul ((RawText.subset_descend spelling.text_ne_empty plain).2 name member inName)
  obtain ⟨top, left, -, here, goesOn⟩ := reach_descend spelling found
  have leads := leads_of_travel ((goesOn true names empty plain freeNames short).symm.trans reached)
  exact at?_of_leads_names here leads endingDir

/-- Where no links lead to directories, the directories are those of the tree. -/
theorem at?_of_isDir (spelling : base.Spelled start segments)
    (found : disk.node true base.text = .ok (.dir inside))
    (noLinks : disk.NoDirLinks base.text inside)
    (plain : ∀ name ∈ names, IsSegment name.toList)
    (dir : disk.isDir (RawText.descend base.text names)) :
    ∃ below, inside.at? names = some (.dir below) := by
  rcases dir_or_link_of_isDir spelling found plain dir with inTree | ⟨front, back, target, rfl, link⟩
  · exact inTree
  · have occupied := Listing.ne_nil_of_at?_leaf link
    exact absurd (isDir_front spelling found occupied plain dir) (noLinks front target link)

end Disk

end ManifestSearch
