import ManifestSearch.Proofs.TempFolder.Freshness
import ManifestSearch.Proofs.Tree.Vacancy

/-!
A folder from its making to its end. A folder of its own is a directory under a free name, and all that is
asked of the folder changes what this directory holds and nothing else, so at the end the disk is again the
one that there was before. The end of a folder in a given directory changes nothing (`ended_exactly`).
-/

namespace ManifestSearch

open ManifestSearch.Disk (Vacant)
open ManifestSearch.Path (Spelled Start IsSegment)

variable {disk : Disk} {world next : World} {base path : Path} {folder : TempFolder} {stem made : String}
  {directory : Location} {name : String} {inside : Listing}

namespace TempFolder

/-- A directory under a drawn name is a new one, one segment behind the path it is drawn in. -/
theorem makeFresh_vacant (grounded : base.Grounded) (stemPlain : IsPlainText stem)
    (drawn : makeFresh Disk.makeDir base.text stem "" world = (.ok made, next)) :
    ∃ start segments last directory name, Spelled ⟨made⟩ start (segments ++ [last]) ∧
      Vacant world.disk ⟨made⟩ directory name ∧
      next.disk = world.disk.hosting directory name .nil := by
  obtain ⟨⟨tag, rfl⟩, created⟩ := makeFresh_ok drawn
  obtain ⟨start, segments, spelling, free⟩ := grounded.spelled
  have folderSpelling : ({ dir := base } : TempFolder).dir.Spelled start segments := spelling
  have endingPlain : IsPlainText "" := by decide
  obtain ⟨shown, longer⟩ := spelled_place folderSpelling free stemPlain endingPlain tag
  have madeGrounded : Path.Grounded ⟨place base.text stem "" tag⟩ := ⟨shown, longer.startsAtRoot⟩
  obtain ⟨directory, name, vacant, whole⟩ := Disk.vacant_of_makeDir madeGrounded created
  exact ⟨start, segments, _, directory, name, longer, vacant, whole⟩

/-- A folder of its own is a new directory, which it removes by its path. -/
theorem make_vacant (grounded : base.Grounded) (built : make base.text world = (.ok folder, next)) :
    ∃ start segments last directory name, folder.dir.Spelled start (segments ++ [last]) ∧
      Vacant world.disk folder.dir directory name ∧
      next.disk = world.disk.hosting directory name .nil ∧ folder.owned = some folder.dir.text := by
  unfold make at built
  split at built
  · simp at built
  · rename_i made between drawn
    obtain ⟨start, segments, last, directory, name, spelling, vacant, whole⟩ :=
      makeFresh_vacant grounded (by decide) drawn
    have read := Disk.absolute_of_grounded between.disk vacant.grounded
    simp only [read, Prod.mk.injEq, Except.ok.injEq] at built
    obtain ⟨rfl, rfl⟩ := built
    exact ⟨start, segments, last, directory, name, spelling, vacant, whole, rfl⟩

/-! What is asked of a folder whose directory is new. -/

variable {request : Request} {content : String} {failure : Failure}

theorem name_plain (request : Request) (tag : Tag) :
    IsSegment (request.stem ++ tag.text ++ request.ending).toList :=
  (isSegment_generated tag request.stemPlain request.endingPlain).1

/-- A call that succeeds puts one file more into the directory. -/
theorem Request.run_ok (vacant : Vacant disk request.folder.dir directory name)
    (before : world.disk = disk.hosting directory name inside)
    (answered : request.run world = (.ok path, next)) :
    ∃ content other, request.fill = .ok content ∧ IsSegment other.toList ∧
      inside.find? other = none ∧ path = ⟨RawText.join request.folder.dir.text other⟩ ∧
      next.disk = disk.hosting directory name (inside.put other (.leaf (.file content))) := by
  obtain ⟨content, whole, written⟩ := allocate_ok answered
  obtain ⟨grown, tag, dirs, rfl, created⟩ := writeNew_made written
  rw [before, Disk.makeDirs_of_isDir vacant.grounded (vacant.isDir inside)] at dirs
  obtain rfl := (Prod.mk.inj dirs).2
  obtain ⟨free, put, -⟩ := vacant.create_hosting (name_plain request tag) created
  have shown := (place_spelled vacant.grounded request.stemPlain request.endingPlain tag).1
  exact ⟨content, _, whole, name_plain request tag, free, shown, put⟩

/-- A call that fails leaves the directory as it was, also if its file was there for a time. -/
theorem Request.run_error (vacant : Vacant disk request.folder.dir directory name)
    (stands : disk.HereStands) (before : world.disk = disk.hosting directory name inside)
    (failed : request.run world = (.error failure, next)) : next.disk = world.disk := by
  have dirs := Disk.makeDirs_of_isDir vacant.grounded (vacant.isDir inside)
  rw [← before] at dirs
  unfold Request.run allocate at failed
  rw [dirs] at failed
  extract_lets written at failed
  change settle request.fill (makeFresh (fun disk text => disk.create text written)
    request.folder.dir.text request.stem request.ending world) = (.error failure, next) at failed
  cases drawn : makeFresh (fun disk text => disk.create text written) request.folder.dir.text request.stem
      request.ending world with
  | mk outcome last =>
      rw [drawn] at failed
      cases outcome with
      | error refused =>
          cases failed
          exact makeFresh_error drawn
      | ok made =>
          obtain ⟨⟨tag, rfl⟩, created⟩ := makeFresh_ok drawn
          cases filled : request.fill with
          | ok content => simp [settle, filled] at failed
          | error broken =>
              rw [before] at created
              obtain ⟨-, -, restored⟩ := vacant.create_hosting (name_plain request tag) created
              simp only [settle, filled, Prod.mk.injEq] at failed
              rw [← failed.2, before]
              exact restored stands

/-- A path shows a file under its name in the directory of a folder. -/
def Shows (folder : TempFolder) (inside : Listing) (path : Path) (content : String) : Prop :=
  ∃ name : String, IsSegment name.toList ∧ path = ⟨RawText.join folder.dir.text name⟩ ∧
    inside.find? name = some (.leaf (.file content))

/-- What a call leaves: the files that were there, and the one that it answers. -/
theorem Request.run_hosting (vacant : Vacant disk request.folder.dir directory name)
    (stands : disk.HereStands) (before : world.disk = disk.hosting directory name inside) :
    ∃ grown, (request.run world).2.disk = disk.hosting directory name grown ∧
      (∀ other held, inside.find? other = some held → grown.find? other = some held) ∧
      ∀ path, (request.run world).1 = .ok path →
        ∃ content, request.fill = .ok content ∧ request.folder.Shows grown path content := by
  cases ran : request.run world with
  | mk outcome next =>
      cases outcome with
      | error failure =>
          refine ⟨inside, (run_error vacant stands before ran).trans before, fun _ _ held => held, ?_⟩
          intro path answered
          contradiction
      | ok path =>
          obtain ⟨content, other, whole, plain, free, rfl, after⟩ := run_ok vacant before ran
          refine ⟨_, after, fun name held stood => ?_, fun path answered => ?_⟩
          · have different : name ≠ other := by
              rintro rfl
              simp [free] at stood
            rw [Listing.find?_put, if_neg different, stood]
          · cases answered
            exact ⟨content, whole, other, plain, rfl, by rw [Listing.find?_put, if_pos rfl]⟩

/-- As long as a folder is used, the disk is the one before it with its directory, which holds all files
that were answered. -/
theorem ended_hosting (vacant : Vacant disk folder.dir directory name) (stands : disk.HereStands)
    {requests : List Request} (asked : ∀ request ∈ requests, request.folder = folder)
    (before : world.disk = disk.hosting directory name inside) :
    ∃ last, (ended (requests.map .ask) world).disk = disk.hosting directory name last ∧
      (∀ other held, inside.find? other = some held → last.find? other = some held) ∧
      ∀ call ∈ calls (requests.map .ask) world, ∀ path, call.outcome = .ok path →
        ∃ content, call.request.fill = .ok content ∧ folder.Shows last path content := by
  induction requests generalizing world inside with
  | nil => exact ⟨inside, before, fun _ _ held => held, by simp [calls]⟩
  | cons request requests ih =>
      obtain rfl := asked request (by simp)
      obtain ⟨grown, after, kept, shown⟩ := request.run_hosting vacant stands before
      obtain ⟨last, finally_, still, others⟩ :=
        ih (fun other member => asked other (List.mem_cons_of_mem request member)) after
      refine ⟨last, finally_, fun name held stood => still name held (kept name held stood), ?_⟩
      intro call member path answered
      rcases List.mem_cons.mp member with rfl | member
      · obtain ⟨content, whole, name, plain, same, held⟩ := shown path answered
        exact ⟨content, whole, name, plain, same, still name _ held⟩
      · exact others call member path answered

/-- A file directly in the directory of a folder, which its path shows there. -/
structure Holds (folder : TempFolder) (disk : Disk) (path : Path) (content : String) : Prop where
  above : path.parent? = some folder.dir
  entry : ∃ inside name, disk.node false folder.dir.text = .ok (.dir inside) ∧
    path.text = RawText.join folder.dir.text name ∧ inside.find? name = some (.leaf (.file content))
  reads : disk.read path.text = .ok content

/-- What was answered is read until the last call. -/
theorem read_of_mem_calls {acts : List Act} {call : Call} (member : call ∈ calls acts world)
    (answered : call.outcome = .ok path) (whole : call.request.fill = .ok content) :
    (ended acts world).disk.read path.text = .ok content := by
  obtain ⟨sound, -, growth⟩ := calls_sound member
  obtain ⟨written, same, adds⟩ := sound.adds answered
  obtain rfl : written = content := by simpa [whole] using same.symm
  exact adds.read_later growth

/-- Until its end a folder of its own holds every file that it answered; its end takes back all that came
of it. The end of a folder in a given directory takes back nothing. -/
theorem ended_exactly (grounded : base.Grounded) (ordered : world.disk.root.Ordered)
    (stands : world.disk.HereStands) :
    (∀ (folder : TempFolder) (first : World) (requests : List Request),
      make base.text world = (.ok folder, first) →
      (∀ request ∈ requests, request.folder = folder) →
        let last := (ended (requests.map .ask) first).disk
        (∀ call ∈ calls (requests.map .ask) first, ∀ path, call.outcome = .ok path →
          ∃ content, call.request.fill = .ok content ∧ folder.Holds last path content) ∧
        folder.drop last = world.disk) ∧
    ∀ (disk : Disk) (text : String) (folder : TempFolder), inDir disk text = .ok folder →
      (∀ disk, folder.drop disk = disk) ∧
      ∀ (first : World) (requests : List Request), (∀ request ∈ requests, request.folder = folder) →
        ∀ call ∈ calls (requests.map .ask) first, ∀ path, call.outcome = .ok path →
          ∃ content, call.request.fill = .ok content ∧
            (folder.drop (ended (requests.map .ask) first).disk).read path.text = .ok content := by
  constructor
  · intro folder first requests built asked last
    obtain ⟨start, segments, lastSegment, directory, name, spelling, vacant, whole, owned⟩ :=
      make_vacant grounded built
    obtain ⟨inside, final, -, shown⟩ := ended_hosting vacant stands asked whole
    refine ⟨fun call member path answered => ?_, ?_⟩
    · obtain ⟨content, filled, other, plain, rfl, held⟩ := shown call member path answered
      have above := spelling.parent?_eq (spelling.enter plain) (.inr (by simp))
      have entered : last.node false folder.dir.text = .ok (.dir inside) := by
        rw [show last = _ from final, vacant.node inside false]
      have read := read_of_mem_calls member answered filled
      exact ⟨content, filled, above, ⟨inside, other, entered, rfl, held⟩, read⟩
    · simp only [drop, owned, last, final]
      exact vacant.remove_hosting ordered stands inside
  · intro disk text folder given
    have kept (disk : Disk) : folder.drop disk = disk := by
      unfold inDir at given
      split at given
      · cases given
        rfl
      · contradiction
    refine ⟨kept, fun first requests asked call member path answered => ?_⟩
    obtain ⟨sound, -, -⟩ := calls_sound member
    obtain ⟨content, filled, -⟩ := sound.adds answered
    rw [kept]
    exact ⟨content, filled, read_of_mem_calls member answered filled⟩

/-- The directory for temporary files is given by a link, and it is the working directory. -/
def linkedTemp : World :=
  ⟨⟨.dir "private" (.dir "tmp" (.leaf "kept" (.file "old") .nil) .nil)
    (.leaf "tmp" (.link "private/tmp") .nil), ["private", "tmp"], false⟩, twice⟩

def ownFolder : TempFolder :=
  ⟨⟨"/tmp/manifest-resolver-aaaaaa"⟩, some "/tmp/manifest-resolver-aaaaaa"⟩

theorem make_linkedTemp : make "/tmp" linkedTemp = (.ok ownFolder, (make "/tmp" linkedTemp).2) := by
  have answer : (make "/tmp" linkedTemp).1 = .ok ownFolder := by decide +kernel
  rw [← answer]

/-- A file that is whole, one that breaks off, and one whose name no disk takes. -/
def sampleRequests {folder : TempFolder} (built : Built folder) : List Request :=
  [sampleRequest (.ok "one") built, sampleRequest (.error ("thr", .denied)) built,
    { sampleRequest (.ok "three") built with stem := "x\x00", stemPlain := by decide }]

theorem folder_of_mem_sampleRequests {built : Built folder} {request : Request}
    (member : request ∈ sampleRequests built) : request.folder = folder := by
  simp only [sampleRequests, List.mem_cons, List.not_mem_nil, or_false] at member
  obtain rfl | rfl | rfl := member <;> rfl

def ownRequests : List Request := sampleRequests (.make make_linkedTemp)

def givenRequests : List Request := sampleRequests built_sampleFolder

/-- What a folder of its own and a folder in a given directory make of the same three files. -/
theorem ended_exactly_in_sample :
    (calls (ownRequests.map .ask) (make "/tmp" linkedTemp).2).map (·.outcome) =
        [.ok ⟨"/tmp/manifest-resolver-aaaaaa/x-aaaaaa.json"⟩,
          .error (.tree "/tmp/manifest-resolver-aaaaaa/x-bbbbbb.json" .denied),
          .error (.allocation "/tmp/manifest-resolver-aaaaaa"
            "/tmp/manifest-resolver-aaaaaa/x\x00bbbbbb.json" .nulInPath)] ∧
      ownFolder.drop (ended (ownRequests.map .ask) (make "/tmp" linkedTemp).2).disk =
        linkedTemp.disk ∧
      (sampleFolder.drop (ended (givenRequests.map .ask) drawnWorld).disk).read
        "/w/src/made/x-aaaaaa.json" = .ok "one" := by
  have grounded : Path.Grounded ⟨"/tmp"⟩ := by decide
  have ordered : linkedTemp.disk.root.Ordered := by decide
  have stands : linkedTemp.disk.HereStands := by decide
  obtain ⟨own, others⟩ := ended_exactly grounded ordered stands
  have restored := (own _ _ ownRequests make_linkedTemp fun _ => folder_of_mem_sampleRequests).2
  have given : inDir Walk.sampleDisk "/w/src/made" = .ok sampleFolder := by decide +kernel
  have kept := (others _ _ _ given).2 drawnWorld givenRequests fun _ => folder_of_mem_sampleRequests
  obtain ⟨content, whole, read⟩ := kept _ (.head _) ⟨"/w/src/made/x-aaaaaa.json"⟩ (by decide +kernel)
  cases whole
  exact ⟨by decide +kernel, restored, read⟩

end TempFolder

end ManifestSearch
