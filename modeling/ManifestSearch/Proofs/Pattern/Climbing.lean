import ManifestSearch.Proofs.Glob.Grafting
import ManifestSearch.Proofs.Path.Above
import ManifestSearch.Proofs.Pattern.Rooted

/-!
Patterns that climb out of the base. A pattern with `..` in front names the same path below a base
as the rest of it does below the directory that holds the base, but the two are matched through
different globs: one of them has names of the base in front of the other, which are read as a glob
too. Where these names stand for themselves, both patterns answer the same.
-/

namespace ManifestSearch

open ManifestSearch.Path (Spelled IsSegment Start keep isDrive settled spelled slashed)

variable {disk : Disk} {base parent path start top file : Path} {pattern : String}
  {segments more dirs front : List (List Char)} {plain last : List Char}
  {tokens : List Glob.Token}

namespace Pattern

theorem pieces_up (pattern : String) :
    Text.pieces '/' (slashed ("../" ++ pattern).toList) =
      ['.', '.'] :: Text.pieces '/' (slashed pattern.toList) := by
  have text : slashed ("../" ++ pattern).toList = ['.', '.'] ++ '/' :: slashed pattern.toList := by
    simp [slashed]
  rw [text, Text.pieces_append]
  rfl

theorem relative_up (pattern : String) :
    ∀ first ∈ ("../" ++ pattern).toList.head?, first ≠ '/' ∧ first ≠ '\\' := by
  simp

theorem parts_up (pattern : String) : parts ("../" ++ pattern) = parts pattern := by
  rw [parts, parts, pieces_up]
  rfl

theorem not_startsAtRoot_ofText
    (relative : ∀ first ∈ pattern.toList.head?, first ≠ '/' ∧ first ≠ '\\') :
    ¬startsAtRoot (Path.ofText pattern).text := by
  rw [ofText_relative relative]
  intro rooted
  have head : (spelled .relative (parts pattern)).head? = some '/' := by
    simpa [startsAtRoot] using rooted
  exact Path.start_ne_relative head (Path.start_spelled_relative isSegment_of_mem_parts)

theorem ofText_ne_nil
    (relative : ∀ first ∈ pattern.toList.head?, first ≠ '/' ∧ first ≠ '\\') :
    (Path.ofText pattern).text.toList ≠ [] := by
  have plain := @isSegment_of_mem_parts pattern
  rw [ofText_relative relative, String.toList_ofList]
  match parts pattern, plain with
  | [], _ => simp [spelled]
  | [only], plain =>
      have full := (plain only (by simp)).full
      simp only [spelled]
      split <;> simp [full]
  | _ :: _ :: _, plain =>
      intro empty
      have none := (Text.joined_eq_nil fun segment member => (plain segment member).full).mp empty
      simp at none

/-- Both patterns are anchored alike. -/
theorem anchor_up (spelling : base.Spelled .rooted (front ++ [last]))
    (above : parent.Spelled .rooted front)
    (relative : ∀ first ∈ pattern.toList.head?, first ≠ '/' ∧ first ≠ '\\')
    (noDots : ['.', '.'] ∉ Text.pieces '/' (slashed pattern.toList))
    (noDrive : isDrive last = false) :
    anchor base ("../" ++ pattern) = anchor parent pattern ∧
      ((anchor parent pattern).Spelled .rooted (front ++ parts pattern) ∨
        anchor parent pattern = Path.ofText pattern) := by
  have same : Path.ofText ("../" ++ pattern) = Path.ofText pattern := by
    rw [ofText_relative (relative_up pattern), parts_up, ofText_relative relative]
  by_cases taken : (Path.ofText pattern).isAbsolute
  · have own : anchor parent pattern = Path.ofText pattern := if_pos taken
    have ownBelow : anchor base ("../" ++ pattern) = Path.ofText pattern := by
      rw [anchor, same, if_pos taken]
    exact ⟨ownBelow.trans own.symm, .inr own⟩
  · have joined : anchor parent pattern = parent.join pattern := if_neg taken
    have joinedBelow : anchor base ("../" ++ pattern) = base.join ("../" ++ pattern) := by
      rw [anchor, same, if_neg taken]
    have fromParent := above.join_text (head_slashed_of_relative relative)
    have fromBase := spelling.join_text (head_slashed_of_relative (relative_up pattern))
    have back : keep (front ++ [last]).reverse ['.', '.'] = front.reverse := by
      simp [keep, noDrive]
    rw [pieces_up, List.foldl_cons, back, Path.foldl_keep_of_noDots noDots] at fromBase
    rw [Path.foldl_keep_of_noDots noDots] at fromParent
    have whole : ((parts pattern).reverse ++ front.reverse).reverse = front ++ parts pattern := by
      simp
    rw [joined, joinedBelow]
    exact ⟨fromBase.unique fromParent, .inl (whole ▸ fromParent)⟩

/-! Two globs, one behind plain names. -/

theorem isWild_of_isPlain {char : Char} (alone : Glob.isPlain char) : isWild char = false := by
  simp only [Glob.isPlain, Bool.and_eq_true, Bool.not_eq_true'] at alone
  exact alone.1

namespace Scope

variable {low high : Scope}

/-- A scope with the glob of another one behind plain names, for a walk from the same place. -/
structure Grafts (plain : List Char) (low high : Scope) : Prop where
  plainFront : ∀ char ∈ plain, Glob.isPlain char
  glob : high.glob.toList = plain ++ '/' :: low.glob.toList
  occupied : low.glob ≠ ""
  ending : low.glob.toList.getLast? ≠ some '/'
  start : high.start = low.start

theorem Grafts.finding_cases (grafts : Grafts plain low high) (disk : Disk) :
    ((high.finding disk).outcome = .ok [] ∧ (low.finding disk).outcome = .ok []) ∨
      disk.isDir low.start.text ∧ ∃ tokens,
        (high.finding disk).outcome = (Walk.files ⟨low.start, []⟩ disk).map (List.filter
          (high.selects (Glob.grafted (plain.map .char).reverse tokens))) ∧
        (low.finding disk).outcome = (Walk.files ⟨low.start, []⟩ disk).map (List.filter
          (low.selects tokens)) := by
  have parsed := Glob.parse_grafted grafts.plainFront grafts.glob grafts.occupied grafts.ending
  have wild : high.glob.toList.any isWild = low.glob.toList.any isWild := by
    have front : plain.any isWild = false := by
      apply List.any_eq_false.mpr
      intro char member
      simp [isWild_of_isPlain (grafts.plainFront char member)]
    rw [grafts.glob, List.any_append, front, List.any_cons]
    rfl
  by_cases some : low.glob.toList.any isWild
  · cases read : Glob.parse low.glob with
    | error reason =>
        rw [read] at parsed
        left
        simp only [Scope.finding, wild, some, parsed, read, Except.map]
        exact ⟨rfl, rfl⟩
    | ok tokens =>
        rw [read] at parsed
        by_cases dir : disk.isDir low.start.text
        · right
          refine ⟨dir, tokens, ?_⟩
          rw [finding_of_isDir (wild.trans some) parsed (grafts.start ▸ dir),
            finding_of_isDir some read dir, grafts.start]
          exact ⟨rfl, rfl⟩
        · left
          simp only [Scope.finding, wild, some, parsed, read, Except.map, grafts.start, dir]
          exact ⟨rfl, rfl⟩
  · left
    simp only [Scope.finding, wild, some]
    exact ⟨rfl, rfl⟩

theorem selects_iff {scope : Scope} : scope.selects tokens file ↔
    ∃ subject, scope.subject? file = some subject ∧ Glob.isMatch tokens subject := by
  unfold selects
  split
  · rename_i subject found
    simp [found]
  · rename_i none
    simp [none]

theorem selects_grafted (same : ∀ rest, low.subject? file = some rest ↔
      ∃ longer, high.subject? file = some longer ∧ longer.toList = plain ++ '/' :: rest.toList) :
    high.selects (Glob.grafted (plain.map .char).reverse tokens) file =
      low.selects tokens file := by
  apply Bool.eq_iff_iff.mpr
  rw [selects_iff, selects_iff]
  constructor
  · rintro ⟨longer, found, matched⟩
    obtain ⟨rest, text, matched⟩ := Glob.isMatch_grafted.mp matched
    exact ⟨_, (same _).mpr ⟨longer, found, by rw [text, String.toList_ofList]⟩, matched⟩
  · rintro ⟨rest, found, matched⟩
    obtain ⟨longer, there, text⟩ := (same rest).mp found
    exact ⟨longer, there, Glob.isMatch_grafted.mpr ⟨_, text, by rwa [String.ofList_toList]⟩⟩

/-- The files that a walk from a directory finds. -/
def Walked (disk : Disk) (start file : Path) : Prop :=
  disk.isDir start.text ∧ ∃ all, Walk.files ⟨start, []⟩ disk = .ok all ∧ file ∈ all

theorem Grafts.outcome (grafts : Grafts plain low high)
    (same : ∀ file, Walked disk low.start file → file ≠ top → ∀ rest,
      low.subject? file = some rest ↔
        ∃ longer, high.subject? file = some longer ∧ longer.toList = plain ++ '/' :: rest.toList) :
    (high.finding disk).outcome.map (List.filter (· ≠ top)) =
        (low.finding disk).outcome.map (List.filter (· ≠ top)) ∧
      ((∀ file, Walked disk low.start file → file ≠ top) →
        (high.finding disk).outcome = (low.finding disk).outcome) := by
  rcases grafts.finding_cases disk with ⟨nothing, none⟩ | ⟨dir, tokens, longer, shorter⟩
  · rw [nothing, none]
    exact ⟨rfl, fun _ => rfl⟩
  · rw [longer, shorter]
    cases walked : Walk.files ⟨low.start, []⟩ disk with
    | error failure => exact ⟨rfl, fun _ => rfl⟩
    | ok all =>
        have alike (file : Path) (member : file ∈ all) (other : file ≠ top) :
            high.selects (Glob.grafted (plain.map .char).reverse tokens) file =
              low.selects tokens file :=
          selects_grafted (same file ⟨dir, all, walked, member⟩ other)
        constructor
        · refine congrArg Except.ok ?_
          rw [List.filter_filter, List.filter_filter]
          refine List.filter_congr fun file member => ?_
          by_cases other : file = top
          · simp [other]
          · rw [alike file member other]
        · intro others
          refine congrArg Except.ok (List.filter_congr fun file member => ?_)
          exact alike file member (others file ⟨dir, all, walked, member⟩)

theorem Walked.rooted (walked : Walked disk start file) (rooted : startsAtRoot start.text) :
    startsAtRoot file.text := by
  obtain ⟨-, all, files, member⟩ := walked
  exact Walk.files_rooted rooted files file member

/-- A walk finds files below its start only, if no name is read as more than one. -/
theorem Walked.ne (walked : Walked disk start file) (sound : disk.Sound)
    (tame : disk.root.EveryName IsTame) (started : start.Spelled .rooted (segments ++ dirs))
    (free : ∀ segment ∈ segments ++ dirs, '\\' ∉ segment)
    (above : top.Spelled .rooted segments) : file ≠ top := by
  obtain ⟨dir, all, files, member⟩ := walked
  obtain ⟨ending, reached, endingDir, -⟩ := Disk.reach_of_isDir started.startsAtRoot dir
  obtain ⟨inside, held⟩ := Disk.isDirAt_iff.mp endingDir
  have found := Disk.node_of_reach reached held
  have site : Walk.Site disk start inside := ⟨sound, started.grounded free, found⟩
  rw [Walk.files_ok started.startsAtRoot found files] at member
  obtain ⟨names, leaf, inside, -, rfl⟩ := Walk.mem_filesBelow.mp member
  have stands := site.at?_of_mem_leaves inside
  rw [site.ofText_descend ((tame.at? held).2 _ rfl) stands]
  intro same
  have further := started.descend (site.plain stands)
  rw [same] at further
  have longer : (segments ++ dirs) ++ segmentsOf names = segments :=
    ((Path.spelled_inj further.plain above.plain).mp (further.text.symm.trans above.text)).2
  have none : names = [] := by
    simp only [List.append_assoc, List.append_right_eq_self, List.append_eq_nil_iff] at longer
    exact List.map_eq_nil_iff.mp longer.2
  exact Listing.ne_nil_of_mem_leaves inside none

end Scope

/-! The walks start at the same place. -/

theorem plainDirs_append (plain : ∀ segment ∈ front ++ more, IsSegment segment)
    (literal : ∀ segment ∈ front, ∀ char ∈ segment, isWild char = false) (occupied : more ≠ []) :
    plainDirs (Text.joined '/' (front ++ more)) = front ++ plainDirs (Text.joined '/' more) := by
  rw [plainDirs_joined plain,
    plainDirs_joined fun segment member => plain segment (by simp [member]),
    List.dropLast_append_of_ne_nil occupied, List.takeWhile_append_of_pos]
  intro segment member
  simpa using literal segment member

theorem plainStart_spelled (spelling : path.Spelled .rooted segments) (occupied : segments ≠ []) :
    plainStart path.text.toList = spelled .rooted (plainDirs (Text.joined '/' segments)) := by
  have free : ∀ segment ∈ segments, '/' ∉ segment := fun segment member =>
    (spelling.plain segment member).noSlash
  have dirs : plainDirs path.text.toList = [] :: plainDirs (Text.joined '/' segments) := by
    obtain ⟨first, rest, rfl⟩ := List.exists_cons_of_ne_nil occupied
    rw [spelling.text, spelled, plainDirs, plainDirs, Text.pieces, if_pos rfl,
      Text.pieces_joined occupied free, List.dropLast_cons_cons]
    rfl
  rw [plainStart, dirs]
  by_cases top : plainDirs (Text.joined '/' segments) = []
  · simp [top, spelling.text, spelled, Text.joined]
  · simp [Text.joined_cons top, spelled]

/-- Two answers that differ by one path at most, and by none where no name has a backslash. -/
structure Agree (disk : Disk) (top : Path) (left right : Except Failure (List Path)) : Prop where
  others : left.map (List.filter (· ≠ top)) = right.map (List.filter (· ≠ top))
  whole : disk.Sound → disk.root.EveryName IsTame → left = right

theorem Agree.of_eq {left right : Except Failure (List Path)} (same : left = right) :
    Agree disk top left right := ⟨same ▸ rfl, fun _ _ => same⟩

theorem Agree.symm {left right : Except Failure (List Path)} (agree : Agree disk top left right) :
    Agree disk top right left :=
  ⟨agree.others.symm, fun sound tame => (agree.whole sound tame).symm⟩

theorem Scope.Grafts.agree {low high : Scope} (grafts : Grafts plain low high)
    (started : low.start.Spelled .rooted (segments ++ dirs))
    (free : ∀ segment ∈ segments ++ dirs, '\\' ∉ segment) (above : top.Spelled .rooted segments)
    (same : ∀ file, startsAtRoot file.text → file ≠ top → ∀ rest,
      low.subject? file = some rest ↔
        ∃ longer, high.subject? file = some longer ∧ longer.toList = plain ++ '/' :: rest.toList) :
    Agree disk top (high.finding disk).outcome (low.finding disk).outcome := by
  have alike : ∀ file, Walked disk low.start file → file ≠ top → ∀ rest,
      low.subject? file = some rest ↔
        ∃ longer, high.subject? file = some longer ∧
          longer.toList = plain ++ '/' :: rest.toList :=
    fun file walked => same file (walked.rooted started.startsAtRoot)
  obtain ⟨others, whole⟩ := grafts.outcome alike
  exact ⟨others, fun sound tame => whole fun file walked =>
    walked.ne sound tame started free above⟩

theorem scope_of_some {rel : String} (within : path.relativeTo? base = some rel) :
    scope base path = ⟨rel, base.join (String.ofList (plainStart rel.toList)), some base⟩ := by
  unfold scope
  rw [within]

theorem scope_of_none (outside : path.relativeTo? base = none) :
    scope base path =
      ⟨path.text, Path.ofText (String.ofList (plainStart path.text.toList)), none⟩ := by
  unfold scope
  rw [outside]

theorem Scope.outcome_of_literal {scope : Scope}
    (literal : ∀ char ∈ scope.glob.toList, isWild char = false) :
    (scope.finding disk).outcome = .ok [] := by
  have plain : scope.glob.toList.any isWild = false :=
    List.any_eq_false.mpr fun char member => by simp [literal char member]
  unfold Scope.finding
  rw [plain]
  rfl

/-- A glob of segments behind a plain front. -/
theorem Scope.Grafts.of_joined {low high : Scope} (plainFront : ∀ char ∈ plain, Glob.isPlain char)
    (segmented : ∀ segment ∈ more, IsSegment segment) (occupied : more ≠ [])
    (shorter : low.glob.toList = Text.joined '/' more)
    (longer : high.glob.toList = plain ++ '/' :: Text.joined '/' more)
    (start : high.start = low.start) : Scope.Grafts plain low high where
  plainFront := plainFront
  glob := by rw [longer, shorter]
  occupied empty := by
    have none : Text.joined '/' more = [] := by rw [← shorter, empty]; rfl
    have full : ∀ segment ∈ more, segment ≠ [] := fun segment member =>
      (segmented segment member).full
    exact occupied ((Text.joined_eq_nil full).mp none)
  ending := by
    rw [shorter]
    exact Path.getLast?_joined_ne_slash segmented
  start := start

theorem free_plainDirs (plain : ∀ segment ∈ more, IsSegment segment)
    (free : ∀ segment ∈ segments ++ more, '\\' ∉ segment) :
    ∀ segment ∈ segments ++ plainDirs (Text.joined '/' more), '\\' ∉ segment := by
  intro segment member
  rcases List.mem_append.mp member with member | member
  · exact free segment (by simp [member])
  · exact free segment (by simp [mem_of_mem_plainDirs plain member])

theorem start_within (spelling : base.Spelled .rooted segments)
    (plain : ∀ segment ∈ more, IsSegment segment) (free : ∀ segment ∈ more, '\\' ∉ segment) :
    (base.join (String.ofList (plainStart (Text.joined '/' more)))).Spelled .rooted
      (segments ++ plainDirs (Text.joined '/' more)) := by
  rw [plainStart_joined plain]
  exact spelling.join (fun segment member => plain segment (mem_of_mem_plainDirs plain member))
    fun segment member => free segment (mem_of_mem_plainDirs plain member)

/-- Below the directory above the base, one glob has the path of that directory in front. -/
theorem agree_beside (spelling : base.Spelled .rooted (front ++ [last]))
    (above : parent.Spelled .rooted front) (anchored : path.Spelled .rooted (front ++ more))
    (free : ∀ segment ∈ front ++ more, '\\' ∉ segment) (beside : more.head? ≠ some last)
    (literal : ∀ char ∈ parent.text.toList, Glob.isPlain char) :
    Agree disk parent ((scope base path).finding disk).outcome
      ((scope parent path).finding disk).outcome := by
  have plain : ∀ segment ∈ more, IsSegment segment := fun segment member =>
    anchored.plain segment (by simp [member])
  have freeMore : ∀ segment ∈ more, '\\' ∉ segment := fun segment member =>
    free segment (by simp [member])
  have outside : path.relativeTo? base = none := by
    apply Option.not_isSome_iff_eq_none.mp
    rw [spelling.relativeTo?_isSome_iff anchored (fun _ => rfl), List.prefix_append_right_inj]
    rintro ⟨rest, rfl⟩
    exact beside rfl
  rw [scope_of_none outside]
  by_cases here : more = []
  · subst here
    rw [List.append_nil] at anchored
    cases anchored.unique above
    have named : ∀ char ∈ parent.text.toList, isWild char = false := fun char member =>
      isWild_of_isPlain (literal char member)
    rw [scope_of_some above.relativeTo?_self]
    apply Agree.of_eq
    rw [Scope.outcome_of_literal named, Scope.outcome_of_literal (by simp)]
  · have within := above.relativeTo?_eq anchored (.inl rfl) here
    have started := start_within above plain freeMore
    have freeDirs := free_plainDirs plain free
    have dirs := plainDirs_append anchored.plain (fun segment member char inside =>
      isWild_of_isPlain (literal char (above.mem_text member inside))) here
    have grafts : Scope.Grafts parent.trimmed
        ⟨String.ofList (Text.joined '/' more),
          parent.join (String.ofList (plainStart (Text.joined '/' more))), some parent⟩
        ⟨path.text, Path.ofText (String.ofList (plainStart path.text.toList)), none⟩ := by
      have longer := above.text_below anchored (.inl rfl) here
      refine .of_joined ?_ plain here String.toList_ofList longer ?_
      · exact fun char member => literal char ((Text.dropEnd_prefix _ _).subset member)
      · rw [plainStart_spelled anchored (by simp [here]), dirs, ← started.text,
          String.ofList_toList]
        exact started.ofText_text freeDirs
    rw [scope_of_some within, String.toList_ofList]
    refine grafts.agree started freeDirs above fun file rooted other rest => ?_
    simpa [Scope.subject?] using above.relativeTo?_iff rooted other

/-- Below the base, the other glob has the name of the base in front. -/
theorem agree_below (spelling : base.Spelled .rooted (front ++ [last]))
    (above : parent.Spelled .rooted front)
    (anchored : path.Spelled .rooted (front ++ last :: more))
    (free : ∀ segment ∈ front ++ last :: more, '\\' ∉ segment)
    (literal : ∀ char ∈ last, Glob.isPlain char) :
    Agree disk base ((scope base path).finding disk).outcome
      ((scope parent path).finding disk).outcome := by
  have plainAll : ∀ segment ∈ last :: more, IsSegment segment := fun segment member =>
    anchored.plain segment (List.mem_append_right front member)
  have freeAll : ∀ segment ∈ last :: more, '\\' ∉ segment := fun segment member =>
    free segment (List.mem_append_right front member)
  have plain : ∀ segment ∈ more, IsSegment segment := fun segment member =>
    plainAll segment (List.mem_cons_of_mem last member)
  have freeMore : ∀ segment ∈ more, '\\' ∉ segment := fun segment member =>
    freeAll segment (List.mem_cons_of_mem last member)
  have fromParent := above.relativeTo?_eq anchored (.inl rfl) (List.cons_ne_nil last more)
  by_cases here : more = []
  · subst here
    cases anchored.unique spelling
    rw [scope_of_some anchored.relativeTo?_self, scope_of_some fromParent]
    apply Agree.of_eq
    rw [Scope.outcome_of_literal (by simp), Scope.outcome_of_literal]
    intro char member
    exact isWild_of_isPlain (literal char (by simpa [Text.joined] using member))
  · have text : front ++ last :: more = front ++ [last] ++ more := by simp
    rw [text] at anchored
    have fromBase := spelling.relativeTo?_eq anchored (.inl rfl) here
    have started := start_within spelling plain freeMore
    have startedAbove := start_within above plainAll freeAll
    have dirs : plainDirs (Text.joined '/' ([last] ++ more)) =
        [last] ++ plainDirs (Text.joined '/' more) := by
      refine plainDirs_append plainAll (fun segment member char inside => ?_) here
      rw [List.mem_singleton.mp member] at inside
      exact isWild_of_isPlain (literal char inside)
    have freeDirs := free_plainDirs plain (text ▸ free)
    have grafts : Scope.Grafts last
        ⟨String.ofList (Text.joined '/' more),
          base.join (String.ofList (plainStart (Text.joined '/' more))), some base⟩
        ⟨String.ofList (Text.joined '/' (last :: more)),
          parent.join (String.ofList (plainStart (Text.joined '/' (last :: more)))),
          some parent⟩ := by
      refine .of_joined literal plain here String.toList_ofList ?_ ?_
      · rw [String.toList_ofList, Text.joined_cons here]
      · have longer : front ++ plainDirs (Text.joined '/' ([last] ++ more)) =
            front ++ [last] ++ plainDirs (Text.joined '/' more) := by
          rw [dirs, List.append_assoc]
        exact (longer ▸ startedAbove).unique started
    rw [scope_of_some fromBase, scope_of_some fromParent, String.toList_ofList,
      String.toList_ofList]
    -- The roles are exchanged here: the glob for the base is the shorter one.
    exact (grafts.agree started freeDirs spelling fun file rooted other rest =>
      spelling.relativeTo?_above above rooted other).symm

/-! Whole patterns. -/

/-- A pattern for the directory above a base that leads back to the base. -/
def returns (base : Path) (pattern : String) : Bool :=
  (parts pattern).head?.map String.ofList = base.fileName?

theorem returns_iff {start : Start} (spelling : base.Spelled start (front ++ [last])) :
    returns base pattern ↔ (parts pattern).head? = some last := by
  rw [returns, spelling.fileName?_concat, decide_eq_true_iff]
  cases (parts pattern).head? with
  | none => simp
  | some first => simp [String.ofList_inj]

theorem agree_of_anchor {other : String} (same : anchor base other = anchor parent pattern)
    (agree : Agree disk top ((scope base (anchor parent pattern)).finding disk).outcome
      ((scope parent (anchor parent pattern)).finding disk).outcome) :
    Agree disk top (resolve disk base other).outcome (resolve disk parent pattern).outcome := by
  simp only [resolve]
  by_cases literal : disk.isFile (anchor parent pattern).text
  · have literalBelow : disk.isFile (anchor base other).text := by rwa [same]
    apply Agree.of_eq
    rw [finding_of_isFile literalBelow, finding_of_isFile literal, same]
  · have unnamed : literal? disk parent pattern = none := if_neg literal
    have unnamedBelow : literal? disk base other = none := by rw [literal?, same, if_neg literal]
    unfold finding
    rw [unnamed, unnamedBelow, same]
    exact agree

/-- A pattern that climbs out of a base answers what the rest of it answers for the directory above,
if the base is no drive and the names that are put into one of the globs stand for themselves. -/
theorem resolve_up_agrees (grounded : base.Grounded)
    (single : Path.start base.text.toList = .rooted) (above : base.parent? = some parent)
    (relative : ∀ first ∈ pattern.toList.head?, first ≠ '/' ∧ first ≠ '\\')
    (noDots : ['.', '.'] ∉ Text.pieces '/' (slashed pattern.toList))
    (noDrive : ∀ name ∈ base.fileName?, isDrive name.toList = false)
    (plainName : returns base pattern → ∀ name ∈ base.fileName?,
      ∀ char ∈ name.toList, Glob.isPlain char)
    (plainAbove : ¬returns base pattern → ∀ char ∈ parent.text.toList, Glob.isPlain char) :
    Agree disk (if returns base pattern then base else parent)
      (resolve disk base ("../" ++ pattern)).outcome (resolve disk parent pattern).outcome := by
  obtain ⟨start, segments, spelling, free⟩ := grounded.spelled
  obtain rfl : start = .rooted := by
    rw [← Path.start_spelled spelling.atRoot spelling.plain, ← spelling.text, single]
  obtain ⟨front, last, rfl, spelledAbove⟩ := spelling.above above
  have name : String.ofList last ∈ base.fileName? := spelling.fileName?_concat
  have drive : isDrive last = false := by simpa using noDrive _ name
  obtain ⟨same, anchored | own⟩ := anchor_up spelling spelledAbove relative noDots drive
  · have freeAll : ∀ segment ∈ front ++ parts pattern, '\\' ∉ segment := by
      intro segment member
      rcases List.mem_append.mp member with member | member
      · exact free segment (by simp [member])
      · exact fun inside => Path.not_mem_slashed _ (Path.mem_of_mem_settled member inside)
    apply agree_of_anchor same
    by_cases back : returns base pattern
    · obtain ⟨more, whole⟩ := List.head?_eq_some_iff.mp ((returns_iff spelling).mp back)
      have literal := plainName back _ name
      rw [String.toList_ofList] at literal
      rw [if_pos back]
      rw [whole] at anchored freeAll
      exact agree_below spelling spelledAbove anchored freeAll literal
    · rw [if_neg back]
      exact agree_beside spelling spelledAbove anchored freeAll
        (fun same => back ((returns_iff spelling).mpr same)) (plainAbove back)
  · -- A drive leads away from both directories.
    have outside {path : Path} (rooted : startsAtRoot path.text) :
        (anchor parent pattern).relativeTo? path = none := by
      rw [own]
      exact Path.relativeTo?_of_relative rooted (not_startsAtRoot_ofText relative)
        (ofText_ne_nil relative)
    apply agree_of_anchor same
    apply Agree.of_eq
    rw [scope_of_none (outside spelling.startsAtRoot),
      scope_of_none (outside spelledAbove.startsAtRoot)]

def bracketDisk : Disk :=
  ⟨.dir "[x]" (.leaf "a.json" (.file "") (.dir "sub" (.leaf "b.json" (.file "") .nil) .nil))
    (.dir "x" (.leaf "a.json" (.file "") .nil) .nil), [], false⟩

theorem resolve_up_agrees_in_brackets :
    (resolve bracketDisk ⟨"/[x]"⟩ "../**/a.json").outcome =
        (resolve bracketDisk ⟨"/"⟩ "**/a.json").outcome ∧
      (resolve bracketDisk ⟨"/"⟩ "**/a.json").outcome =
        .ok [⟨"/[x]/a.json"⟩, ⟨"/x/a.json"⟩] := by
  have agree : Agree bracketDisk _ (resolve bracketDisk ⟨"/[x]"⟩ ("../" ++ "**/a.json")).outcome
      (resolve bracketDisk ⟨"/"⟩ "**/a.json").outcome :=
    resolve_up_agrees (by decide) (by decide) (by decide) (by simp) (by decide) (by decide)
      (by decide) fun _ => by simp [Glob.isPlain, isWild]
  exact ⟨agree.whole (by decide +kernel) (by decide +kernel), by decide +kernel⟩

/-- Brackets in the path of the directory above the base are read as a part of the glob. -/
example : (resolve bracketDisk ⟨"/[x]/sub"⟩ "../*.json").outcome = .ok [⟨"/x/a.json"⟩] ∧
    (resolve bracketDisk ⟨"/[x]"⟩ "*.json").outcome = .ok [⟨"/[x]/a.json"⟩] := by
  decide +kernel

end Pattern

end ManifestSearch
