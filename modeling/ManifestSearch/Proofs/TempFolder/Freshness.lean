import ManifestSearch.Proofs.Chain.Effects
import ManifestSearch.Proofs.TempFolder.Staying
import ManifestSearch.Proofs.Tree.Erasing

/-!
Files for which names are drawn, in any number of folders, while other things are made in the same
tree. One call adds one file under a path that named nothing, or no file at all
(`Request.call_sound`), and takes nothing away, so the path goes on naming that file and is never
answered again (`calls_fresh`).
-/

namespace ManifestSearch

variable {disk before after later : Disk} {world next : World} {folder : TempFolder} {path : Path}
  {stem ending content text : String} {fill : Except (String × Fault) String} {failure : Failure}

theorem TempFolder.Gains.grows {top : Location} {name : String}
    (gains : folder.Gains before after path content top name) :
    Listing.Grows before.root after.root := by
  refine Listing.grows_of_kept fun location stands => ?_
  by_cases above : location <+: top
  · obtain ⟨missing | dir, made⟩ := gains.way location above
    · contradiction
    · rw [made, dir]
  · refine gains.rest location above fun same => stands ?_
    rw [same, Listing.entryAt?_eq_none]
    exact gains.fresh

namespace TempFolder

/-! One call. -/

theorem allocate_ok (answered : folder.allocate stem ending fill world = (.ok path, next)) :
    ∃ content, fill = .ok content ∧
      folder.writeNew stem ending content world = (.ok path, next) := by
  cases fill with
  | ok content => exact ⟨content, rfl, answered⟩
  | error broken =>
      have never (answer : Except Failure String × World) :
          settle (.error broken) answer ≠ (.ok path, next) := by
        obtain ⟨outcome, last⟩ := answer
        cases outcome <;> simp [settle]
      unfold allocate at answered
      split at answered
      · simp at answered
      · exact absurd answered (never _)

/-- A call that fails leaves directories at most: a file that could not be filled is gone again. -/
theorem allocate_error (rooted : startsAtRoot folder.dir.text)
    (failed : folder.allocate stem ending fill world = (.error failure, next)) :
    Listing.AddsDirs world.disk.root next.disk.root := by
  unfold allocate at failed
  split at failed
  · rename_i dirs
    cases failed
    exact (Disk.makeDirs_addsDirs dirs).tree
  · rename_i grown dirs
    have added := (Disk.makeDirs_addsDirs dirs).tree
    extract_lets written at failed
    cases drawn : makeFresh (fun disk text => disk.create text written) folder.dir.text stem ending
        { world with disk := grown } with
    | mk outcome last =>
        rw [drawn] at failed
        cases outcome with
        | error refused =>
            cases failed
            rw [makeFresh_error drawn]
            exact added
        | ok made =>
            obtain ⟨⟨tag, rfl⟩, created⟩ := makeFresh_ok drawn
            cases fill with
            | ok content => simp [settle] at failed
            | error broken =>
                cases failed
                refine added.trans fun location => .inl ?_
                exact Disk.entryAt?_remove_of_create (RawText.startsAtRoot_join rooted _) created
                  location

/-- What is asked of a folder: a name without slashes, and what comes of filling the file. -/
structure Request where
  folder : TempFolder
  stem : String
  ending : String
  fill : Except (String × Fault) String
  built : Built folder
  stemPlain : IsPlainText stem
  endingPlain : IsPlainText ending

def Request.run (request : Request) (world : World) : Except Failure Path × World :=
  request.folder.allocate request.stem request.ending request.fill world

/-- A call of a folder, with the trees before and after it. -/
structure Call where
  request : Request
  before : Disk
  outcome : Except Failure Path
  after : Disk

def Request.call (request : Request) (world : World) : Call :=
  ⟨request, world.disk, (request.run world).1, (request.run world).2.disk⟩

/-- A path that named nothing names a file with a content. No other file is there that was not there
before, and none is changed. -/
structure Call.Adds (call : TempFolder.Call) (path : Path) (content : String) : Prop where
  rooted : startsAtRoot path.text
  unnamed : ∀ node, call.before.node false path.text ≠ .ok node
  holds : call.after.read path.text = .ok content
  gains : ∃ top name, call.request.folder.Gains call.before call.after path content top name

/-- What a call is to do. -/
def Call.Sound (call : Call) : Prop :=
  match call.outcome with
  | .ok path => ∃ content, call.request.fill = .ok content ∧ call.Adds path content
  | .error _ => Listing.AddsDirs call.before.root call.after.root

/-- One file more under a path that named nothing, or no file at all. -/
theorem Request.call_sound (request : Request) (world : World) : (request.call world).Sound := by
  have grounded := request.built.grounded
  cases ran : request.run world with
  | mk outcome next =>
      cases outcome with
      | error failure =>
          simp only [Call.Sound, Request.call, ran]
          exact allocate_error grounded.2 ran
      | ok path =>
          simp only [Call.Sound, Request.call, ran]
          obtain ⟨content, whole, written⟩ := allocate_ok ran
          obtain ⟨tag, place, rfl, wrote⟩ := writeNew_wrote grounded.2 written
          have shown := (place_spelled grounded request.stemPlain request.endingPlain tag).1
          have gains := writeNew_gains grounded request.stemPlain request.endingPlain written
          have rooted :=
            RawText.startsAtRoot_join grounded.2 (request.stem ++ tag.text ++ request.ending)
          rw [shown] at gains ⊢
          refine ⟨content, whole, rooted, fun node found => ?_, wrote.read rooted (.refl _), gains⟩
          obtain ⟨location, reached, -⟩ := Disk.node_ok rooted found
          exact wrote.free location reached

namespace Call

variable {call earlier : Call}

theorem Adds.read_later (adds : call.Adds path content)
    (growth : Listing.Grows call.after.root later.root) : later.read path.text = .ok content := by
  obtain ⟨top, name, gains⟩ := adds.gains
  have reached := Disk.reach_grows adds.rooted growth gains.fileAt
  rw [Disk.read, Disk.node_of_reach reached (growth.leaf _ _ gains.holds)]

theorem Sound.adds (sound : call.Sound) (answered : call.outcome = .ok path) :
    ∃ content, call.request.fill = .ok content ∧ call.Adds path content := by
  rwa [Sound, answered] at sound

theorem Sound.grows (sound : call.Sound) : Listing.Grows call.before.root call.after.root := by
  unfold Sound at sound
  split at sound
  · obtain ⟨content, -, adds⟩ := sound
    obtain ⟨top, name, gains⟩ := adds.gains
    exact gains.grows
  · exact Listing.AddsDirs.grows sound

/-- A later call answers another path than an earlier one, whose file is read before and after it. -/
def Kept (earlier later : Call) : Prop :=
  ∀ path, earlier.outcome = .ok path → later.outcome ≠ .ok path ∧
    ∀ content, earlier.request.fill = .ok content →
      later.before.read path.text = .ok content ∧ later.after.read path.text = .ok content

theorem Sound.kept {later : Call} (sound : earlier.Sound) (other : later.Sound)
    (growth : Listing.Grows earlier.after.root later.before.root) : Kept earlier later := by
  intro path answered
  obtain ⟨written, same, adds⟩ := sound.adds answered
  have read := adds.read_later growth
  refine ⟨fun again => ?_, fun content whole => ?_⟩
  · obtain ⟨_, _, fresh⟩ := other.adds again
    obtain ⟨node, found⟩ := Disk.node_of_read adds.rooted read
    exact fresh.unnamed node found
  · obtain rfl : written = content := by simpa [whole] using same.symm
    exact ⟨read, adds.read_later (growth.trans other.grows)⟩

end Call

/-! Runs of calls. -/

/-- Anything else that happens meanwhile and takes nothing away. -/
structure Making where
  change : World → World
  grows : ∀ world : World, Listing.Grows world.disk.root (change world).disk.root

/-- Making one thing, or leaving everything as it is. -/
def Making.ofMake (make : Disk → Except Fault Disk)
    (grows : ∀ {before after}, make before = .ok after → Listing.Grows before.root after.root) :
    Making where
  change world :=
    match make world.disk with
    | .ok disk => { world with disk }
    | .error _ => world
  grows world := by
    split
    · rename_i made
      exact grows made
    · exact .refl _

def Making.file (text content : String) : Making := .ofMake (·.create text content) Disk.create_grows

def Making.dir (text : String) : Making := .ofMake (·.makeDir text) Disk.makeDir_grows

def Making.link (text target : String) : Making := .ofMake (·.link text target) Disk.link_grows

inductive Act where
  | ask (request : Request)
  | make (making : Making)

def Act.run : Act → World → World
  | .ask request, world => (request.run world).2
  | .make making, world => making.change world

def ended (acts : List Act) (world : World) : World :=
  acts.foldl (fun world act => act.run world) world

/-- The calls of folders among what is done in a world. -/
def calls : List Act → World → List Call
  | [], _ => []
  | .ask request :: acts, world => request.call world :: calls acts (request.run world).2
  | .make making :: acts, world => calls acts (making.change world)

theorem Act.run_grows (act : Act) (world : World) :
    Listing.Grows world.disk.root (act.run world).disk.root := by
  cases act with
  | ask request => exact (request.call_sound world).grows
  | make making => exact making.grows world

theorem ended_grows (acts : List Act) (world : World) :
    Listing.Grows world.disk.root (ended acts world).disk.root := by
  induction acts generalizing world with
  | nil => exact .refl _
  | cons act acts ih => exact (act.run_grows world).trans (ih (act.run world))

/-- Every call does what it is to do, and the tree grows from the start to it and from it to the end. -/
theorem calls_sound {acts : List Act} {call : Call} (member : call ∈ calls acts world) :
    call.Sound ∧ Listing.Grows world.disk.root call.before.root ∧
      Listing.Grows call.after.root (ended acts world).disk.root := by
  induction acts generalizing world with
  | nil => contradiction
  | cons act acts ih =>
      have grown := act.run_grows world
      cases act with
      | ask request =>
          rcases List.mem_cons.mp member with rfl | member
          · exact ⟨request.call_sound world, .refl _, ended_grows acts _⟩
          · obtain ⟨sound, before, after⟩ := ih member
            exact ⟨sound, grown.trans before, after⟩
      | make making =>
          obtain ⟨sound, before, after⟩ := ih member
          exact ⟨sound, grown.trans before, after⟩

theorem calls_kept (acts : List Act) (world : World) : (calls acts world).Pairwise Call.Kept := by
  induction acts generalizing world with
  | nil => exact .nil
  | cons act acts ih =>
      cases act with
      | make making => exact ih _
      | ask request =>
          refine .cons (fun later member => ?_) (ih _)
          obtain ⟨sound, growth, -⟩ := calls_sound member
          exact (request.call_sound world).kept sound growth

/-- Every file that is made is new, and goes on holding its content; a call that fails makes no file
and changes none. -/
theorem calls_fresh (acts : List Act) (world : World) :
    (∀ call ∈ calls acts world, call.Sound ∧ ∀ path content, call.outcome = .ok path →
        call.request.fill = .ok content → (ended acts world).disk.read path.text = .ok content) ∧
      (calls acts world).Pairwise Call.Kept := by
  refine ⟨fun call member => ?_, calls_kept acts world⟩
  obtain ⟨sound, -, growth⟩ := calls_sound member
  refine ⟨sound, fun path content answered whole => ?_⟩
  obtain ⟨written, same, adds⟩ := sound.adds answered
  obtain rfl : written = content := by simpa [whole] using same.symm
  exact adds.read_later growth

/-- The same directory, reached through a link. -/
def linkedFolder : TempFolder := { dir := ⟨"/w/also"⟩ }

/-- A folder below a file. -/
def blockedFolder : TempFolder := { dir := ⟨"/w/src/app.ts/made"⟩ }

theorem built_linkedFolder : Built linkedFolder := by
  have made : TempFolder.inDir Walk.sampleDisk "/w/also" = .ok linkedFolder := by decide +kernel
  exact .inDir made

theorem built_blockedFolder : Built blockedFolder := by
  have made : TempFolder.inDir Walk.sampleDisk "/w/src/app.ts/made" = .ok blockedFolder := by
    decide +kernel
  exact .inDir made

def sampleRequest (fill : Except (String × Fault) String) {folder : TempFolder}
    (built : Built folder) : Request :=
  ⟨folder, "x-", ".json", fill, built, by decide, by decide⟩

/-- Every letter is drawn twice. -/
def twice (index : Nat) : Tag :=
  ⟨List.replicate 6 ⟨index / 2 % 62, Nat.mod_lt _ (Nat.zero_lt_succ _)⟩, List.length_replicate⟩

def drawnWorld : World := ⟨Walk.sampleDisk, twice⟩

def sampleActs : List Act :=
  [.ask (sampleRequest (.ok "one") built_sampleFolder), .make (.link "/w/also" "src/made"),
    .make (.file "/w/src/made/x-bbbbbb.json" "other"), .make (.dir "/w/src/made/x-cccccc.json"),
    .make (.link "/w/src/made/x-dddddd.json" "nowhere"),
    .ask (sampleRequest (.ok "two") built_linkedFolder),
    .ask (sampleRequest (.error ("thr", .denied)) built_sampleFolder),
    .ask (sampleRequest (.ok "four") built_blockedFolder)]

/-- Two folders of one directory draw names that are held by a file, a directory and a link; then a file
breaks off, and a folder can not be made. -/
theorem calls_fresh_in_sample :
    let made := calls sampleActs drawnWorld
    made.map (·.outcome) = [.ok ⟨"/w/src/made/x-aaaaaa.json"⟩, .ok ⟨"/w/also/x-eeeeee.json"⟩,
        .error (.tree "/w/src/made/x-ffffff.json" .denied),
        .error (.tree "/w/src/app.ts/made" .notDirectory)] ∧
      (∀ call ∈ made, call.Sound) ∧ made.Pairwise Call.Kept := by
  intro made
  have fresh := calls_fresh sampleActs drawnWorld
  exact ⟨by decide +kernel, fun call member => (fresh.1 call member).1, fresh.2⟩

end TempFolder

end ManifestSearch
