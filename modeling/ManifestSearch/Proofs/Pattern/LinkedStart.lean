import ManifestSearch.Proofs.Pattern.WholeWalk
import ManifestSearch.Proofs.Strategy.Declaration

/-!
Patterns that lead through links. A walk does not enter the directories that links lead to, but it
may start in one, and a glob is matched against a walk of the directory that its plain segments lead
to. So a pattern with a link among its plain segments answers files that no walk of the base lists.
-/

namespace ManifestSearch.Pattern

open ManifestSearch.Path (IsSegment)

variable {disk : Disk} {base start file : Path} {inside deeper : Listing} {pattern rel : String}
  {found : List Path} {names : Location}

/-- The names that a glob spells out in front of its first wildcard. -/
def plainNames (glob : String) : Location := (plainDirs glob.toList).map String.ofList

/-- The walk for a glob starts at the place that its plain segments name below the base. -/
theorem start_eq (grounded : base.Grounded) (within : (anchor base pattern).relativeTo? base = some rel)
    (single : base.segments = [] → Path.start base.text.toList = .rooted ∧
      Path.start (anchor base pattern).text.toList = .rooted) :
    (∀ name ∈ plainNames rel, IsSegment name.toList ∧ '\\' ∉ name.toList) ∧
      base.join (String.ofList (plainStart rel.toList)) =
        ⟨RawText.descend base.text (plainNames rel)⟩ := by
  obtain ⟨kind, segments, spelling, -⟩ := grounded.spelled
  have started : Path.start base.text.toList = kind := by
    rw [spelling.text]
    exact Path.start_spelled spelling.atRoot spelling.plain
  obtain ⟨proper, anchoredAlike⟩ : (kind = .rooted ∨ segments ≠ []) ∧
      Path.start (anchor base pattern).text.toList = kind := by
    by_cases alone : segments = []
    · obtain ⟨rooted, anchoredRooted⟩ := single (by rw [spelling.segments_eq, alone]; rfl)
      rw [← started, rooted]
      exact ⟨.inl rfl, anchoredRooted⟩
    · exact ⟨.inr alone, spelling.start_of_relativeTo? alone within⟩
  obtain ⟨whole, anchored, free⟩ := anchor_spelled grounded anchoredAlike spelling.atRoot
  obtain ⟨more, rfl, text⟩ := spelling.eq_append_of_relativeTo? anchored (fun _ => rfl) within
  have plain : ∀ segment ∈ more, IsSegment segment := fun segment member =>
    anchored.plain segment (by simp [member])
  have tame : ∀ segment ∈ more, '\\' ∉ segment := fun segment member =>
    free segment (by simp [member])
  have dirs : plainDirs (Text.joined '/' more) = segmentsOf (plainNames rel) := by
    simp [segmentsOf, plainNames, text proper, Function.comp_def]
  constructor
  · intro name member
    have inMore : name.toList ∈ more :=
      mem_of_mem_plainDirs plain (dirs ▸ List.mem_map_of_mem member)
    exact ⟨plain _ inMore, tame _ inMore⟩
  · rw [text proper]
    exact scope_start spelling plain tame dirs

theorem Scope.finding_cases (scope : Scope) (disk : Disk) :
    (scope.finding disk).outcome = .ok [] ∨ ∃ outcome, scope.finding disk = .matched outcome := by
  unfold Scope.finding
  split
  · exact .inl rfl
  · split
    · exact .inl rfl
    · split
      · exact .inl rfl
      · exact .inr ⟨_, rfl⟩

/-- The files that a pattern answers are files below the place where its walk starts. -/
theorem resolve_from_start (literal : ¬disk.isFile (anchor base pattern).text)
    (within : (anchor base pattern).relativeTo? base = some rel)
    (begins : base.join (String.ofList (plainStart rel.toList)) = start)
    (rooted : startsAtRoot start.text)
    (succeeds : (resolve disk base pattern).outcome = .ok found) :
    found = [] ∨ ∃ deeper, disk.node true start.text = .ok (.dir deeper) ∧
      ∀ file ∈ found, file ∈ Walk.filesBelow disk [] start.text deeper := by
  simp only [resolve, finding_of_not_isFile literal within, begins] at succeeds
  rcases Scope.finding_cases ⟨rel, start, some base⟩ disk with nothing | ⟨outcome, matched⟩
  · rw [nothing] at succeeds
    cases succeeds
    exact .inl rfl
  · obtain ⟨dir, tokens, rfl⟩ := Scope.finding_matched matched
    obtain ⟨ending, reached, endingDir, -⟩ := Disk.reach_of_isDir rooted dir
    obtain ⟨deeper, held⟩ := Disk.isDirAt_iff.mp endingDir
    have there := Disk.node_of_reach reached held
    rw [matched] at succeeds
    refine .inr ⟨deeper, there, fun file member => ?_⟩
    rw [Walk.files_map_ok rooted there succeeds] at member
    exact (List.mem_filter.mp member).1

theorem mem_filesBelow_of_dir (ordered : inside.Ordered)
    (held : inside.at? names = some (.dir deeper))
    (member : file ∈ Walk.filesBelow disk [] (RawText.descend base.text names) deeper) :
    file ∈ Walk.filesBelow disk [] base.text inside := by
  rw [← Walk.listed_below ordered held, Walk.listed] at member
  obtain ⟨entry, inBoth, rfl⟩ := List.mem_map.mp member
  obtain ⟨passing, counted⟩ := List.mem_filter.mp inBoth
  exact Walk.mem_filesBelow.mpr ⟨entry.1, entry.2, (List.mem_filter.mp passing).1, counted, rfl⟩

/-- A file listed both below the base and below a place further down lies in a directory of the
tree there. -/
theorem dir_of_mem_filesBelow (site : Walk.Site disk base inside)
    (further : Walk.Site disk ⟨RawText.descend base.text names⟩ deeper)
    (plain : ∀ name ∈ names, IsSegment name.toList) (tame : disk.root.EveryName IsTame)
    (below : file ∈ Walk.filesBelow disk [] (RawText.descend base.text names) deeper)
    (listed : file ∈ Walk.filesBelow disk [] base.text inside) :
    ∃ deeper, inside.at? names = some (.dir deeper) := by
  have tameBelow {start : Path} {entries : Listing} (start_site : Walk.Site disk start entries) :
      entries.EveryName IsTame := by
    obtain ⟨top, held⟩ := start_site.place
    exact (tame.at? held).2 entries rfl
  obtain ⟨back, held, inDeeper, -, rfl⟩ := Walk.mem_filesBelow.mp below
  obtain ⟨place, other, inInside, -, same⟩ := Walk.mem_filesBelow.mp listed
  have standsBack := further.at?_of_mem_leaves inDeeper
  have stands := site.at?_of_mem_leaves inInside
  rw [further.ofText_descend (tameBelow further) standsBack,
    site.ofText_descend (tameBelow site) stands] at same
  obtain ⟨kind, segments, spelling, -⟩ := site.grounded.spelled
  have whole := (further.segments_descend standsBack).symm.trans
    ((congrArg Path.segments same).trans (site.segments_descend stands))
  rw [spelling.segments_descend plain, List.append_assoc, List.append_cancel_left_eq] at whole
  rw [← whole] at stands
  exact Listing.at?_front stands (Listing.ne_nil_of_mem_leaves inDeeper)

/-- A pattern that names no file answers files that a walk of the base lists too, if its plain
segments lead to a directory of the tree. Otherwise, if it answers any files, one of these segments
is a link, and where no name has a backslash in it the walk lists none of them. -/
theorem resolve_within_or_linked (site : Walk.Site disk base inside)
    (single : base.segments = [] → Path.start base.text.toList = .rooted ∧
      Path.start (anchor base pattern).text.toList = .rooted)
    (within : (anchor base pattern).relativeTo? base = some rel)
    (literal : ¬disk.isFile (anchor base pattern).text)
    (succeeds : (resolve disk base pattern).outcome = .ok found) :
    let all := Walk.filesBelow disk [] base.text inside
    (∀ walked, Walk.files ⟨base, []⟩ disk = .ok walked → walked = all) ∧
      ((∃ deeper, inside.at? (plainNames rel) = some (.dir deeper)) → ∀ file ∈ found, file ∈ all) ∧
      (found ≠ [] → (¬∃ deeper, inside.at? (plainNames rel) = some (.dir deeper)) →
        (∃ front back target, plainNames rel = front ++ back ∧
          inside.at? front = some (.leaf (.link target))) ∧
        (disk.root.EveryName IsTame → ∀ file ∈ found, file ∉ all)) := by
  intro all
  obtain ⟨kind, segments, spelling, free⟩ := site.grounded.spelled
  obtain ⟨plainTame, begins⟩ := start_eq site.grounded within single
  have plain : ∀ name ∈ plainNames rel, IsSegment name.toList := fun name member =>
    (plainTame name member).1
  have longer := spelling.descend plain
  have grounded : Path.Grounded ⟨RawText.descend base.text (plainNames rel)⟩ := by
    refine longer.grounded fun segment member => ?_
    rcases List.mem_append.mp member with member | member
    · exact free segment member
    · obtain ⟨name, inNames, rfl⟩ := List.mem_map.mp member
      exact (plainTame name inNames).2
  refine ⟨fun walked ended => Walk.files_ok site.grounded.2 site.found ended, ?_, ?_⟩
  · rintro ⟨deeper, held⟩ file member
    rcases resolve_from_start literal within begins longer.startsAtRoot succeeds with
      rfl | ⟨other, there, below⟩
    · simp at member
    · -- What the text leads to is what stands in the tree.
      have stands : disk.node true (RawText.descend base.text (plainNames rel)) = .ok (.dir deeper) := by
        by_cases empty : plainNames rel = []
        · rw [empty] at held ⊢
          cases held
          exact site.found
        · exact Disk.node_descend spelling site.found empty (site.valid held)
            (Disk.short_of_node longer.startsAtRoot there) held (by simp)
      cases stands.symm.trans there
      exact mem_filesBelow_of_dir site.ordered held (below file member)
  · intro some noDir
    rcases resolve_from_start literal within begins longer.startsAtRoot succeeds with
      rfl | ⟨deeper, there, below⟩
    · exact absurd rfl some
    · constructor
      · have dir : disk.isDir (RawText.descend base.text (plainNames rel)) := by
          simp [Disk.isDir, there]
        exact (Disk.dir_or_link_of_isDir spelling site.found plain dir).resolve_left noDir
      · intro tame file member listed
        exact noDir (dir_of_mem_filesBelow site ⟨site.sound, grounded, there⟩ plain tame
          (below file member) listed)

def linkedListing : Listing :=
  .leaf "link" (.link "real") (.dir "real" (.leaf "x.json" (.file "") .nil) .nil)

def linkedDisk : Disk := ⟨.dir "w" linkedListing .nil, [], false⟩

theorem resolve_through_link :
    (resolve linkedDisk ⟨"/w"⟩ "link/*.json").outcome = .ok [⟨"/w/link/x.json"⟩] ∧
      ∀ file ∈ [(⟨"/w/link/x.json"⟩ : Path)],
        file ∉ Walk.filesBelow linkedDisk [] "/w" linkedListing := by
  have outcome : (resolve linkedDisk ⟨"/w"⟩ "link/*.json").outcome = .ok [⟨"/w/link/x.json"⟩] := by
    decide +kernel
  have site : Walk.Site linkedDisk ⟨"/w"⟩ linkedListing := by decide +kernel
  have within : (anchor ⟨"/w"⟩ "link/*.json").relativeTo? ⟨"/w"⟩ = some "link/*.json" := by
    decide +kernel
  have linked := resolve_within_or_linked site (by decide +kernel) within (by decide +kernel) outcome
  have noDir : ¬∃ deeper, linkedListing.at? (plainNames "link/*.json") = some (.dir deeper) := by
    have link : linkedListing.at? (plainNames "link/*.json") = some (.leaf (.link "real")) := by
      decide +kernel
    simp [link]
  exact ⟨outcome, (linked.2.2 (by simp) noDir).2 (by decide +kernel)⟩

/-- With a wildcard in place of the link, the pattern matches nothing there. -/
example : (resolve linkedDisk ⟨"/w"⟩ "l*/x.json").outcome = .ok [] := by decide +kernel

end ManifestSearch.Pattern
