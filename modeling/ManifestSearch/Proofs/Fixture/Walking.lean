import ManifestSearch.Proofs.Fixture.Requests
import ManifestSearch.Proofs.Strategy.Drawn
import ManifestSearch.Proofs.TempFolder.Naming
import ManifestSearch.Proofs.Walk.Reached

/-!
A tree that was laid out, and the walk of it. The requests that were granted tell what stands at every
place of the tree (`Leaves`), so a walk lists the files that were asked for, each spelled as its text
and with the content that was asked for last (`walk_ended`).
-/

namespace ManifestSearch.Fixture

open ManifestSearch.Disk (Vacant Fits isDirAt isDirAt_iff)

variable {fixture : Fixture} {disk : Disk} {directory location names : Location} {name : String}
  {inside before middle after : Listing} {rel : Rel} {request : Request}

namespace Request

/-- The content that a request writes at a place. -/
def content? (location : Location) : Request → Option String
  | file rel content => if rel.names = location then some content else none
  | dir _ => none

/-- The directories that a request makes or needs. -/
def Opens (location : Location) : Request → Prop
  | file rel _ => location <+: rel.names ∧ location ≠ rel.names
  | dir rel => location <+: rel.names

theorem Opens.within (opens : request.Opens location) : location <+: request.rel.names := by
  cases request with
  | file rel content => exact opens.1
  | dir rel => exact opens

theorem Grants.contentAt? (grants : request.Grants before after) (free : ¬request.Stuck before)
    (location : Location) :
    after.contentAt? location = (request.content? location).or (before.contentAt? location) := by
  have entry := grants.entries location
  cases request with
  | file rel content =>
      rw [Stuck, not_or] at free
      simp only [granted] at entry
      by_cases here : location = rel.names
      · subst here
        simp [Listing.contentAt?, entry, content?]
      · by_cases within : location <+: rel.names
        · have none := Listing.contentAt?_of_not_barred free.1
            ((Listing.prefix_dropLast_iff rel.occupied).mpr ⟨within, here⟩)
          rw [none]
          simp [Listing.contentAt?, entry, content?, here, Ne.symm here, within]
        · simp [Listing.contentAt?, entry, content?, here, Ne.symm here, within]
  | dir rel =>
      simp only [granted] at entry
      by_cases within : location <+: rel.names
      · rw [Listing.contentAt?_of_not_barred free within]
        simp [Listing.contentAt?, entry, content?, within]
      · simp [Listing.contentAt?, entry, content?, within]

theorem Grants.isDirAt_iff (grants : request.Grants before after) (free : ¬request.Stuck before)
    (location : Location) :
    isDirAt after location ↔ request.Opens location ∨ isDirAt before location := by
  have entry := grants.entries location
  simp only [Listing.isDirAt_iff_entryAt?]
  cases request with
  | file rel content =>
      rw [Stuck, not_or, Listing.isDirAt_iff_entryAt?] at free
      simp only [granted] at entry
      by_cases here : location = rel.names
      · subst here
        simp [entry, Opens, free.2]
      · by_cases within : location <+: rel.names
        · simp [entry, Opens, here, within]
        · simp [entry, Opens, here, within]
  | dir rel =>
      simp only [granted] at entry
      by_cases within : location <+: rel.names
      · simp [entry, Opens, within]
      · simp [entry, Opens, within]

end Request

/-! Requests one after another. -/

/-- A request with the tree before it and what came of it. -/
structure Call where
  request : Request
  before : Disk
  outcome : Except Breach Unit

def calls (fixture : Fixture) : List Request → Disk → List Call
  | [], _ => []
  | request :: later, disk =>
      ⟨request, disk, (request.run fixture disk).1⟩ :: fixture.calls later (request.run fixture disk).2

/-- The tree that requests leave, those that failed passed over. -/
def ended (fixture : Fixture) (requests : List Request) (disk : Disk) : Disk :=
  requests.foldl (fun disk request => (request.run fixture disk).2) disk

theorem calls_cons {outcome : Except Breach Unit} {next : Disk} {requests : List Request}
    (answer : request.run fixture disk = (outcome, next)) :
    fixture.calls (request :: requests) disk =
      ⟨request, disk, outcome⟩ :: fixture.calls requests next := by
  rw [calls, answer]

theorem ended_cons {outcome : Except Breach Unit} {next : Disk} {requests : List Request}
    (answer : request.run fixture disk = (outcome, next)) :
    fixture.ended (request :: requests) disk = fixture.ended requests next := by
  rw [ended, List.foldl_cons, answer, ended]

/-- The content that a call wrote at a place. -/
def Call.wrote? (call : Call) (location : Location) : Option String :=
  match call.outcome with
  | .ok () => call.request.content? location
  | .error _ => none

/-- The content that was written last at a place. -/
def written? (calls : List Call) (location : Location) : Option String :=
  calls.reverse.findSome? (·.wrote? location)

variable {call : Call} {made later : List Call} {content : String}

theorem written?_cons (call : Call) (later : List Call) (location : Location) :
    written? (call :: later) location = (written? later location).or (call.wrote? location) := by
  rw [written?, List.reverse_cons, List.findSome?_append]
  simp [written?]

/-- What was written at a place was asked for there. -/
theorem exists_of_written? (wrote : written? made location = some content) :
    ∃ call ∈ made, ∃ rel : Rel, call.request = .file rel content ∧ rel.names = location := by
  obtain ⟨call, member, here⟩ := List.exists_of_findSome?_eq_some wrote
  refine ⟨call, List.mem_reverse.mp member, ?_⟩
  obtain ⟨request, before, outcome⟩ := call
  simp only [Call.wrote?] at here
  split at here
  · cases request with
    | file rel content =>
        simp only [Request.content?, Option.ite_none_right_eq_some, Option.some.injEq] at here
        obtain ⟨same, rfl⟩ := here
        exact ⟨rel, rfl, same⟩
    | dir rel => contradiction
  · contradiction

/-- The entries that calls leave. -/
structure Leaves (made : List Call) (before after : Listing) : Prop where
  linkless : after.Linkless
  ordered : after.Ordered
  contents : ∀ location,
    after.contentAt? location = (written? made location).or (before.contentAt? location)
  dirs : ∀ location, isDirAt after location ↔
    (∃ call ∈ made, call.outcome = .ok () ∧ call.request.Opens location) ∨ isDirAt before location

theorem Leaves.refused {breach : Breach} (leaves : Leaves later before after)
    (failed : call.outcome = .error breach) : Leaves (call :: later) before after := by
  refine ⟨leaves.linkless, leaves.ordered, fun location => ?_, fun location => ?_⟩
  · rw [leaves.contents, written?_cons, Call.wrote?, failed, Option.or_none]
  · simp [leaves.dirs, failed]

theorem Leaves.granted (leaves : Leaves later middle after) (answered : call.outcome = .ok ())
    (grants : call.request.Grants before middle) (free : ¬call.request.Stuck before) :
    Leaves (call :: later) before after := by
  refine ⟨leaves.linkless, leaves.ordered, fun location => ?_, fun location => ?_⟩
  · rw [leaves.contents, grants.contentAt? free, written?_cons, Call.wrote?, answered, Option.or_assoc]
  · rw [leaves.dirs, grants.isDirAt_iff free]
    simp only [List.mem_cons, exists_eq_or_imp, answered, true_and]
    rw [or_left_comm, or_assoc]

/-! Requests in a directory of one's own. -/

/-- A place on the way to another. -/
def Rel.front (rel : Rel) (within : names <+: rel.names) (occupied : names ≠ []) : Rel :=
  ⟨names, occupied, fun name member => rel.valid name (within.subset member),
    fun name member => rel.tame name (within.subset member)⟩

theorem barred_iff (vacant : Vacant disk ⟨fixture.root⟩ directory name) (linkless : inside.Linkless)
    (fits : Fits ⟨fixture.root⟩ rel.names) (within : names <+: rel.names) :
    inside.Barred names ↔ ∃ above : Rel, above.names <+: names ∧
      (disk.hosting directory name inside).isFile (fixture.path above.text) := by
  constructor
  · intro barred
    obtain ⟨front, onWay, stands⟩ := barred
    obtain ⟨held, leaf⟩ := stands
    refine ⟨rel.front (onWay.trans within) (Listing.ne_nil_of_at?_leaf leaf), onWay, ?_⟩
    rw [path_eq vacant]
    exact (vacant.isFile_below_iff linkless (vacant.fits_of_prefix fits (onWay.trans within))).mpr
      ⟨held, leaf⟩
  · intro holds
    obtain ⟨above, onWay, file⟩ := holds
    rw [path_eq vacant] at file
    exact ⟨above.names, onWay, (vacant.isFile_below_iff linkless
      (vacant.fits_of_prefix fits (onWay.trans within))).mp file⟩

theorem blocked_iff (vacant : Vacant disk ⟨fixture.root⟩ directory name) (linkless : inside.Linkless)
    (fits : Fits ⟨fixture.root⟩ request.rel.names) :
    request.Blocked fixture (disk.hosting directory name inside) ↔ request.Stuck inside := by
  cases request with
  | file rel content =>
      have fits : Fits ⟨fixture.root⟩ rel.names := fits
      rw [Request.Blocked, Request.Stuck, barred_iff vacant linkless fits (List.dropLast_prefix _),
        path_eq vacant, vacant.isDir_below_iff linkless fits]
      simp only [Listing.prefix_dropLast_iff rel.occupied, and_assoc]
  | dir rel => exact (barred_iff vacant linkless fits List.prefix_rfl).symm

/-- What requests come to in a directory of one's own: a call fails exactly if it is blocked, and the
others leave what they ask for. -/
theorem ended_below {requests : List Request} (vacant : Vacant disk ⟨fixture.root⟩ directory name)
    (linkless : inside.Linkless) (ordered : inside.Ordered)
    (fits : ∀ request ∈ requests, Fits ⟨fixture.root⟩ request.rel.names) :
    (∃ last, fixture.ended requests (disk.hosting directory name inside) =
        disk.hosting directory name last ∧
      Leaves (fixture.calls requests (disk.hosting directory name inside)) inside last) ∧
    ∀ call ∈ fixture.calls requests (disk.hosting directory name inside), call.request ∈ requests ∧
      ((∃ breach, call.outcome = .error breach) ↔ call.request.Blocked fixture call.before) := by
  induction requests generalizing inside with
  | nil =>
      exact ⟨⟨inside, rfl, linkless, ordered, fun _ => rfl, by simp [calls]⟩, by simp [calls]⟩
  | cons request requests ih =>
      have first := fits request (by simp)
      have others := fun other member => fits other (List.mem_cons_of_mem request member)
      obtain ⟨refused, granted⟩ := request.run_below vacant linkless ordered first
      have blocked := blocked_iff vacant linkless first
      by_cases stuck : request.Stuck inside
      · obtain ⟨breach, answer⟩ := refused stuck
        obtain ⟨⟨last, final, leaves⟩, later⟩ := ih linkless ordered others
        rw [calls_cons answer, ended_cons answer]
        refine ⟨⟨last, final, leaves.refused rfl⟩, fun call member => ?_⟩
        rcases List.mem_cons.mp member with rfl | member
        · exact ⟨.head _, iff_of_true ⟨breach, rfl⟩ (blocked.mpr stuck)⟩
        · exact (later call member).imp_left (List.mem_cons_of_mem request)
      · obtain ⟨grown, answer, grants⟩ := granted stuck
        obtain ⟨⟨last, final, leaves⟩, later⟩ := ih (grants.linkless linkless) grants.ordered others
        rw [calls_cons answer, ended_cons answer]
        refine ⟨⟨last, final, leaves.granted rfl grants stuck⟩, fun call member => ?_⟩
        rcases List.mem_cons.mp member with rfl | member
        · exact ⟨.head _, iff_of_false (by simp) (blocked.not.mpr stuck)⟩
        · exact (later call member).imp_left (List.mem_cons_of_mem request)

/-! A tree in a directory that is new. -/

/-- The root of a new tree is a directory that is made under a name that was drawn. -/
theorem make_ok {systemTemp : String} {world next : World}
    (made : make systemTemp world = (.ok fixture, next)) :
    (∃ tag, fixture.root = TempFolder.place systemTemp stem "" tag) ∧
      world.disk.makeDir fixture.root = .ok next.disk := by
  unfold make at made
  split at made
  · simp at made
  · rename_i drawn
    cases made
    exact TempFolder.makeFresh_ok drawn

theorem make_ending {systemTemp : String} {world next : World}
    (made : make systemTemp world = (.ok fixture, next)) :
    ∃ char, fixture.root.toList.getLast? = some char ∧ char.isAlphanum := by
  obtain ⟨⟨tag, place⟩, -⟩ := make_ok made
  obtain ⟨front, whole⟩ := RawText.suffix_join systemTemp (stem ++ tag.text ++ "")
  have occupied : tag.text.toList ≠ [] := by
    rw [← List.length_pos_iff, tag.length_text]
    decide
  refine ⟨tag.text.toList.getLast occupied, ?_, tag.isAlphanum _ (List.getLast_mem occupied)⟩
  rw [place, TempFolder.place, ← whole]
  simp [List.getLast?_append, List.getLast?_eq_some_getLast occupied]

theorem make_vacant {systemTemp : String} {world next : World}
    (made : make systemTemp world = (.ok fixture, next)) (grounded : Path.Grounded ⟨fixture.root⟩) :
    ∃ directory name, Vacant world.disk ⟨fixture.root⟩ directory name ∧
      next.disk = world.disk.hosting directory name .nil :=
  Disk.vacant_of_makeDir grounded (make_ok made).2

/-- Below a new directory, files stand where they were written. -/
theorem Leaves.at?_iff (leaves : Leaves made .nil inside) :
    inside.at? location = some (.leaf (.file content)) ↔ written? made location = some content := by
  rw [← Listing.contentAt?_eq_some, leaves.contents, Listing.contentAt?_nil, Option.or_none]

theorem Leaves.exists_rel {held : Leaf} (leaves : Leaves made .nil inside)
    (stands : inside.at? names = some (.leaf held)) :
    ∃ rel : Rel, rel.names = names ∧ ∃ content, held = .file content := by
  obtain ⟨content, rfl⟩ := leaves.linkless.file_of_leaf stands
  obtain ⟨call, -, rel, -, same⟩ := exists_of_written? (leaves.at?_iff.mp stands)
  exact ⟨rel, same, content, rfl⟩

theorem Leaves.openable (leaves : Leaves made .nil inside)
    (vacant : Vacant disk ⟨fixture.root⟩ directory name)
    (fits : ∀ call ∈ made, Fits ⟨fixture.root⟩ call.request.rel.names) :
    Walk.Openable [] fixture.root inside := by
  intro names member
  obtain ⟨occupied, dir, -⟩ := (Listing.mem_dirs leaves.ordered).mp member
  rcases (leaves.dirs names).mp (isDirAt_iff.mpr dir) with ⟨call, asked, -, opens⟩ | top
  · exact (vacant.fits_of_prefix (fits call asked) opens.within).short
  · obtain ⟨below, found⟩ := isDirAt_iff.mp top
    simp [Listing.at?_nil occupied] at found

/-- The files below the root, as a walk of it finds them. -/
theorem Leaves.run (leaves : Leaves made .nil inside)
    (vacant : Vacant disk ⟨fixture.root⟩ directory name)
    (fits : ∀ call ∈ made, Fits ⟨fixture.root⟩ call.request.rel.names) :
    ∃ files, Walk.run ⟨⟨fixture.root⟩, []⟩ (disk.hosting directory name inside) = ⟨files, none⟩ ∧
      files.Pairwise Path.Precedes ∧
      ∀ file, file ∈ files ↔ ∃ rel : Rel, ∃ content, written? made rel.names = some content ∧
        file = ⟨fixture.spelled rel.text⟩ := by
  have clean (names : Location) (held : Leaf) (stands : inside.at? names = some (.leaf held)) :
      Path.ofText (RawText.descend fixture.root names) = ⟨RawText.descend fixture.root names⟩ := by
    obtain ⟨rel, rfl, -⟩ := leaves.exists_rel stands
    have same := ofText_path vacant rel
    rwa [path_eq vacant, spelled_eq vacant] at same
  have segments (names : Location) (held : Leaf) (stands : inside.at? names = some (.leaf held)) :
      Path.segments ⟨RawText.descend fixture.root names⟩ = Path.segments ⟨fixture.root⟩ ++ names := by
    obtain ⟨rel, rfl, -⟩ := leaves.exists_rel stands
    obtain ⟨start, segments, spelling, -⟩ := vacant.grounded.spelled
    exact spelling.segments_descend rel.plain
  have walked : Walk.run ⟨⟨fixture.root⟩, []⟩ (disk.hosting directory name inside) = _ :=
    Walk.run_of_node (vacant.node inside true)
  refine ⟨_, walked.trans (Walk.below_eq (leaves.openable vacant fits)),
    Walk.filesBelow_precedes leaves.ordered clean segments, fun file => ?_⟩
  rw [Walk.mem_filesBelow_of_canonical leaves.ordered clean]
  constructor
  · intro holds
    obtain ⟨names, ⟨held, stands, -⟩, -, rfl⟩ := holds
    obtain ⟨rel, rfl, content, rfl⟩ := leaves.exists_rel stands
    exact ⟨rel, content, leaves.at?_iff.mp stands, by rw [spelled_eq vacant]⟩
  · intro holds
    obtain ⟨rel, content, wrote, rfl⟩ := holds
    exact ⟨rel.names, ⟨.file content, leaves.at?_iff.mpr wrote, rfl⟩, by simp,
      by rw [spelled_eq vacant]⟩

/-- A tree is what was asked for, and a walk of it finds what was written. A call fails exactly if it is
blocked; whatever failed, the walk lists the places of the written files in the order of their segments,
each spelled as its text behind that of the root, and each file holds what was written there last. The
root has to be canonical for that: the text of a place takes it as it is, and so that text is what a
search makes of the place only where the text of the root is. -/
theorem walk_ended {systemTemp : String} {world next : World} {requests : List Request}
    (made : make systemTemp world = (.ok fixture, next))
    (short : ∀ request ∈ requests,
      (fixture.path request.rel.text).utf8ByteSize < Disk.pathLimit) :
    let calls := fixture.calls requests next.disk
    let last := fixture.ended requests next.disk
    ((∀ rel : Rel, Path.ofText (fixture.path rel.text) = ⟨fixture.spelled rel.text⟩) ↔
      fixture.shownRoot.Canonical) ∧
    (Path.Grounded ⟨fixture.root⟩ →
      (∀ call ∈ calls,
        (∃ breach, call.outcome = .error breach) ↔ call.request.Blocked fixture call.before) ∧
      (∃ files, Walk.run ⟨Path.ofText fixture.root, []⟩ last = ⟨files, none⟩ ∧
        files.Pairwise Path.Precedes ∧
        ∀ file, file ∈ files ↔ ∃ rel : Rel, ∃ content, written? calls rel.names = some content ∧
          file = ⟨fixture.spelled rel.text⟩) ∧
      (∀ (rel : Rel) (content : String), written? calls rel.names = some content →
        last.read (fixture.spelled rel.text) = .ok content) ∧
      ∀ rel : Rel, Path.ofText (fixture.path rel.text) = ⟨fixture.spelled rel.text⟩) := by
  intro calls last
  obtain ⟨char, ending, letter⟩ := make_ending made
  refine ⟨ofText_path_iff ending letter, fun grounded => ?_⟩
  obtain ⟨directory, name, vacant, start⟩ := make_vacant made grounded
  have fits (request : Request) (member : request ∈ requests) :
      Fits ⟨fixture.root⟩ request.rel.names :=
    ⟨request.rel.valid, path_eq vacant request.rel ▸ short request member⟩
  obtain ⟨⟨inside, final, leaves⟩, settled⟩ := ended_below vacant Listing.linkless_nil trivial fits
  rw [← start] at final leaves settled
  have fitsCalls (call : Call) (member : call ∈ calls) : Fits ⟨fixture.root⟩ call.request.rel.names :=
    fits call.request (settled call member).1
  have whole : last = world.disk.hosting directory name inside := final
  refine ⟨fun call member => (settled call member).2, ?_, fun rel content wrote => ?_,
    ofText_path vacant⟩
  · have root : Path.ofText fixture.root = ⟨fixture.root⟩ := grounded.1
    rw [root, whole]
    exact leaves.run vacant fitsCalls
  · obtain ⟨call, member, other, asked, same⟩ := exists_of_written? wrote
    have fitsHere := fitsCalls call member
    rw [asked] at fitsHere
    rw [whole, spelled_eq vacant]
    exact vacant.read_below leaves.linkless (same ▸ fitsHere) (leaves.at?_iff.mpr wrote)

/-- The directory for temporary files is given by a link and with a slash at its end. -/
def sampleStart : World :=
  ⟨⟨.leaf "t" (.link "tmp") (.dir "tmp" .nil .nil), [], false⟩, fun _ => default⟩

def sampleTree : Fixture := ⟨"/t/.tmpaaaaaa"⟩

theorem make_sampleTree : make "/t/" sampleStart = (.ok sampleTree, (make "/t/" sampleStart).2) := by
  have answer : (make "/t/" sampleStart).1 = .ok sampleTree := by decide +kernel
  rw [← answer]

def Rel.of (names : Location) (occupied : names ≠ [])
    (plain : ∀ name ∈ names, IsEntryName name ∧ IsTame name) : Rel :=
  ⟨names, occupied, fun name member => (plain name member).1, fun name member => (plain name member).2⟩

def sampleFile : Rel := .of ["a", "b"] (by decide) (by decide)

def sampleDir : Rel := .of ["a", "c"] (by decide) (by decide)

/-- Files below a file and in place of a directory, a directory in place of a file, and a file written
twice. -/
def sampleLayout : List Request :=
  [.file sampleFile "one", .file (.of ["a", "b", "x"] (by decide) (by decide)) "", .dir sampleFile,
    .dir sampleDir, .file sampleDir "", .file sampleFile "two",
    .file (.of ["a", "c", "d"] (by decide) (by decide)) "three", .dir sampleDir,
    .file (.of ["a.b"] (by decide) (by decide)) "four"]

def sampleLaid : Disk := (make "/t/" sampleStart).2.disk

/-- The directory for temporary files is given by way of the one above it. -/
def detourTree : Fixture := ⟨"/t/../t/.tmpaaaaaa"⟩

theorem make_detourTree :
    make "/t/../t" sampleStart = (.ok detourTree, (make "/t/../t" sampleStart).2) := by
  have answer : (make "/t/../t" sampleStart).1 = .ok detourTree := by decide +kernel
  rw [← answer]

def detourLayout : List Request := [.file (.of ["a"] (by decide) (by decide)) "x"]

def detourEnded : Disk := detourTree.ended detourLayout (make "/t/../t" sampleStart).2.disk

/-- A file is found in both trees, and in the second one not under the text that stands for its place. -/
theorem walk_ended_in_sample :
    ((sampleTree.calls sampleLayout sampleLaid).map (·.outcome) =
        [.ok (), .error (.parent "/t/.tmpaaaaaa/a/b" .exists),
          .error (.dir "/t/.tmpaaaaaa/a/b" .exists), .ok (),
          .error (.file "/t/.tmpaaaaaa/a/c" .isDirectory), .ok (), .ok (), .ok (), .ok ()] ∧
      (∀ call ∈ sampleTree.calls sampleLayout sampleLaid,
        (∃ breach, call.outcome = .error breach) ↔ call.request.Blocked sampleTree call.before) ∧
      Walk.run ⟨Path.ofText "/t/.tmpaaaaaa", []⟩ (sampleTree.ended sampleLayout sampleLaid) =
        ⟨[⟨"/t/.tmpaaaaaa/a/b"⟩, ⟨"/t/.tmpaaaaaa/a/c/d"⟩, ⟨"/t/.tmpaaaaaa/a.b"⟩], none⟩ ∧
      (sampleTree.ended sampleLayout sampleLaid).read (sampleTree.spelled "a/b") = .ok "two") ∧
    Walk.run ⟨Path.ofText "/t/../t/.tmpaaaaaa", []⟩ detourEnded = ⟨[⟨"/t/.tmpaaaaaa/a"⟩], none⟩ ∧
    detourTree.spelled "a" = "/t/../t/.tmpaaaaaa/a" ∧
    ¬∀ rel : Rel, Path.ofText (detourTree.path rel.text) = ⟨detourTree.spelled rel.text⟩ := by
  have grounded : Path.Grounded ⟨sampleTree.root⟩ := by decide
  have short : ∀ request ∈ sampleLayout,
      (sampleTree.path request.rel.text).utf8ByteSize < Disk.pathLimit := by decide +kernel
  have shortDetour : ∀ request ∈ detourLayout,
      (detourTree.path request.rel.text).utf8ByteSize < Disk.pathLimit := by decide +kernel
  obtain ⟨blocked, -, contents, -⟩ := (walk_ended make_sampleTree short).2 grounded
  obtain ⟨spells, -⟩ := walk_ended make_detourTree shortDetour
  have wrote : written? (sampleTree.calls sampleLayout sampleLaid) sampleFile.names = some "two" := by
    decide +kernel
  have skewed : ¬detourTree.shownRoot.Canonical := by decide +kernel
  exact ⟨⟨by decide +kernel, blocked, by decide +kernel, contents sampleFile "two" wrote⟩,
    by decide +kernel, by decide +kernel, spells.not.mpr skewed⟩

end ManifestSearch.Fixture
