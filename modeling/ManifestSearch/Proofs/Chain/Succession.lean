import ManifestSearch.Proofs.Chain.Repetition
import ManifestSearch.Proofs.Strategy.Rediscovery
import ManifestSearch.Proofs.Tree.Laying

/-!
Searches in a row in a tree without links, each with its own folder, selector and options, and all
with one context and convention. Once a manifest had to be generated, the search by name finds no file
any more, whatever is generated and wherever, so a generated manifest is never answered again. It can
fail, though: a folder may be made as deep as the file system allows, and a base that is written with
two slashes makes its path longer by one (`turns_hindered`).
-/

namespace ManifestSearch

variable {world : World} {context : Context} {convention : Convention} {synthesis : Synthesis}
  {syntheses : List Synthesis} {disk : Disk} {files more : List Path}

theorem Declared.search_of_undeclared (convention : Convention) (disk : Disk)
    (noKey : context.properties.hasKey convention.propertyKey = false)
    (noAlias : context.properties.hasKey convention.propertyAlias = false) :
    (search (keysOf convention) disk context).outcome = .ok [] := by
  have unselected : (keysOf convention).selected? context.properties = none := by
    simp [Keys.selected?, keysOf, noKey, noAlias]
  rw [search, unselected]
  rfl

namespace Chain

/-- One of several searches, with the world that it starts from. -/
structure Turn where
  before : World
  done : ChainRun World

/-- Searches one after another, each in the world that the one before left behind. -/
def turns (convention : Convention) (context : Context) : List Synthesis → World → List Turn
  | [], _ => []
  | synthesis :: rest, world =>
      let done := (full convention (synthesis.namedAfter convention)).run context world
      ⟨world, done⟩ :: turns convention context rest done.state

variable {earlier later : Turn}

/-! How the tree grows. -/

theorem full_grownBy (plain : IsPlainText convention.fileName) (linkless : world.disk.root.Linkless)
    (grounded : synthesis.folder.dir.Grounded) (context : Context) :
    Disk.GrownBy convention world.disk
      ((full convention (synthesis.namedAfter convention)).run context world).state.disk := by
  rcases full_cases convention (synthesis.namedAfter convention) context world with
    ⟨-, same⟩ | ⟨-, state, -⟩
  · rw [same]
    exact .refl convention world.disk
  · rw [state]
    exact Synthesis.run_grownBy plain linkless grounded context

/-- What a search starts from has grown out of what the first one starts from. -/
theorem turns_grownBy (plain : IsPlainText convention.fileName) (linkless : world.disk.root.Linkless)
    (grounded : ∀ synthesis ∈ syntheses, synthesis.folder.dir.Grounded)
    (member : later ∈ turns convention context syntheses world) :
    Disk.GrownBy convention world.disk later.before.disk := by
  induction syntheses generalizing world with
  | nil => simp [turns] at member
  | cons synthesis rest ih =>
      rcases List.mem_cons.mp member with rfl | member
      · exact .refl convention world.disk
      · have first := full_grownBy plain linkless (grounded synthesis (by simp)) context
        exact first.trans (ih (first.linkless linkless)
          (fun other inRest => grounded other (List.mem_cons_of_mem synthesis inRest)) member)

theorem exists_of_mem_turns (member : later ∈ turns convention context syntheses world) :
    ∃ synthesis ∈ syntheses,
      later.done = (full convention (synthesis.namedAfter convention)).run context later.before := by
  induction syntheses generalizing world with
  | nil => simp [turns] at member
  | cons synthesis rest ih =>
      rcases List.mem_cons.mp member with rfl | member
      · exact ⟨synthesis, by simp, rfl⟩
      · obtain ⟨other, inRest, same⟩ := ih member
        exact ⟨other, List.mem_cons_of_mem synthesis inRest, same⟩

/-! What a search answers after another. -/

/-- Where neither a property nor a name leads to a manifest, what is answered was generated. -/
theorem full_generates (standard : context.mode = .standard)
    (declared : (Declared.search (Declared.keysOf convention) world.disk context).outcome = .ok [])
    (unfound : Discovered.EmptyUnlessHindered (Discovered.targetOf convention) world.disk context)
    (answered : ((full convention synthesis).run context world).report.outcome = .ok files) :
    ((full convention synthesis).run context world).Generates files := by
  by_cases clear : Discovered.Unhindered (Discovered.targetOf convention) world.disk context.base
  · refine ⟨full_source_iff.mpr ⟨declared, unfound.empty clear⟩, ?_, answered⟩
    intro none
    subst none
    exact full_ne_nothing standard world answered
  · obtain ⟨-, text, -, failed⟩ := unfound.hindered clear
    rw [full_outcome, declared, firstOf_nothing, failed] at answered
    simp [firstOf] at answered

/-- The text of the one file that a search generates leads to nothing before, and is its path. -/
theorem full_generated (plain : IsPlainText convention.fileName)
    (grounded : synthesis.folder.dir.Grounded)
    (generates : ((full convention (synthesis.namedAfter convention)).run context world).Generates
      files) :
    ∃ made, files = [⟨made⟩] ∧ startsAtRoot made ∧
      (∀ place, world.disk.reach false made ≠ .ok (.taken place)) ∧
      ∃ place, ((full convention (synthesis.namedAfter convention)).run context
        world).state.disk.reach false made = .ok (.taken place) := by
  obtain ⟨stemPlain, endingPlain⟩ := Convention.affixes_plain plain
  obtain ⟨listed, tag, content, place, -, rfl, -, wrote⟩ :=
    @full_wrote world context convention (synthesis.namedAfter convention) files grounded.2 generates
  have rooted := @Synthesis.startsAtRoot_fileFor (synthesis.namedAfter convention) grounded.2 tag
  obtain ⟨shown, -⟩ := TempFolder.place_spelled grounded stemPlain endingPlain tag
  exact ⟨_, congrArg (fun path => [path]) shown, rooted, wrote.free, wrote.taken rooted⟩

/-- After a search that had to generate a manifest, no later one finds any by name: it finds nothing,
unless it comes upon a directory too deep to be opened. What a search generates, no later one answers. -/
theorem turns_apart (linkless : world.disk.root.Linkless) (ordered : world.disk.root.Ordered)
    (plain : IsPlainText convention.fileName) (standard : context.mode = .standard)
    (noKey : context.properties.hasKey convention.propertyKey = false)
    (noAlias : context.properties.hasKey convention.propertyAlias = false)
    (baseGrounded : context.base.Grounded)
    (grounded : ∀ synthesis ∈ syntheses, synthesis.folder.dir.Grounded) :
    (turns convention context syntheses world).Pairwise fun earlier later =>
      (earlier.done.source? = some "synthesis" →
        Discovered.EmptyUnlessHindered (Discovered.targetOf convention) later.before.disk context) ∧
      ∀ files more, earlier.done.Generates files → later.done.report.outcome = .ok more →
        ∀ file ∈ files, file ∉ more := by
  induction syntheses generalizing world with
  | nil => exact .nil
  | cons synthesis rest ih =>
      have groundedRest (other : Synthesis) (inRest : other ∈ rest) : other.folder.dir.Grounded :=
        grounded other (List.mem_cons_of_mem synthesis inRest)
      have first := full_grownBy plain linkless (grounded synthesis (by simp)) context
      have linklessNext := first.linkless linkless
      refine .cons (fun later member => ?_) (ih linklessNext (first.ordered ordered) groundedRest)
      have growth := turns_grownBy plain linklessNext groundedRest member
      have unfound (source : ((full convention (synthesis.namedAfter convention)).run context
          world).source? = some "synthesis") :
          Discovered.EmptyUnlessHindered (Discovered.targetOf convention) later.before.disk context :=
        Discovered.search_of_grownBy (first.trans growth) linkless ordered baseGrounded
          (full_source_iff.mp source).2
      refine ⟨unfound, fun files more generates answered file inFiles inMore => ?_⟩
      obtain ⟨other, inRest, same⟩ := exists_of_mem_turns member
      rw [same] at answered
      have again := full_generates standard
        (Declared.search_of_undeclared convention later.before.disk noKey noAlias)
        (unfound generates.1) answered
      -- The text of the earlier manifest is taken by then, so it is not that of the later one.
      obtain ⟨made, rfl, rooted, -, place, taken⟩ :=
        full_generated plain (grounded synthesis (by simp)) generates
      obtain ⟨remade, rfl, -, free, -⟩ := full_generated plain (groundedRest other inRest) again
      rw [List.mem_singleton] at inFiles inMore
      cases inFiles.symm.trans inMore
      exact free place (Disk.reach_grows rooted growth.grows taken)

/-- Manifests go to the base itself, to a folder below it and to one beside it. -/
def spreadSyntheses : List Synthesis :=
  ["/w", "/w/gen/deep", "/tmp"].map fun text =>
    { folder := { dir := ⟨text⟩ }, selector := .byExtension ["ts", "json"] [] }

def spreadWorld : World := ⟨⟨.dir "w" (.leaf "x.ts" (.file "") .nil) .nil, [], false⟩, growingTags⟩

theorem turns_apart_in_spread :
    let context : Context := { base := ⟨"/w"⟩ }
    let done := turns freshConvention context spreadSyntheses spreadWorld
    done.map (fun turn => (turn.done.source?, turn.done.report.outcome)) =
        [(some "synthesis", .ok [⟨"/w/deno-aaaaaa.json"⟩]),
          (some "synthesis", .ok [⟨"/w/gen/deep/deno-bbbbbb.json"⟩]),
          (some "synthesis", .ok [⟨"/tmp/deno-bbbbbb.json"⟩])] ∧
      done.Pairwise fun earlier later =>
        (earlier.done.source? = some "synthesis" →
          Discovered.EmptyUnlessHindered (Discovered.targetOf freshConvention) later.before.disk
            context) ∧
        ∀ files more, earlier.done.Generates files → later.done.report.outcome = .ok more →
          ∀ file ∈ files, file ∉ more := by
  have unlinked : spreadWorld.disk.root.Unlinked := by decide +kernel
  refine ⟨by decide +kernel, ?_⟩
  exact turns_apart unlinked.linkless (by decide +kernel) (by decide +kernel) rfl (by decide +kernel)
    (by decide +kernel) (by decide +kernel) (by decide +kernel)

/-! A folder that is made between two searches, and is too deep for the second. -/

/-- The way to a directory whose path has one byte less than the limit, and with one slash more has as
many. -/
@[irreducible]
def deepNames : Location := List.replicate 2046 "d"

theorem forall_mem_deepNames {condition : String → Prop} (holds : condition "d") :
    ∀ name ∈ deepNames, condition name := by
  intro name member
  rw [deepNames] at member
  rwa [List.eq_of_mem_replicate member]

theorem size_descend_deepNames {text : String} (occupied : text ≠ "")
    (goesOn : text.toList.getLast? ≠ some '/') :
    (RawText.descend text deepNames).utf8ByteSize = text.utf8ByteSize + 4092 := by
  rw [RawText.size_descend occupied goesOn (forall_mem_deepNames (by decide))
    (@forall_mem_deepNames (fun name => name.utf8ByteSize = 1) (by decide)), deepNames,
    List.length_replicate]

def doubledContext : Context := { base := ⟨"//ww"⟩ }

def doubledWorld : World := ⟨⟨.dir "ww" .nil .nil, [], false⟩, growingTags⟩

def besideSynthesis : Synthesis where
  folder := { dir := ⟨"/out"⟩ }
  selector := .byExtension ["ts"] []

/-- The folder can be made, but no file can be made in it. -/
def deepSynthesis : Synthesis where
  folder := { dir := ⟨RawText.descend "/ww" deepNames⟩ }
  selector := .byExtension ["ts"] []

def doubledSyntheses : List Synthesis := [besideSynthesis, deepSynthesis, besideSynthesis]

theorem grounded_deepSynthesis : deepSynthesis.folder.dir.Grounded := by
  have top : Path.Grounded ⟨"/ww"⟩ := by decide
  obtain ⟨start, segments, spelling, free⟩ := top.spelled
  have longer := spelling.descend (forall_mem_deepNames (by decide))
  apply longer.grounded
  intro segment member
  rcases List.mem_append.mp member with above | below
  · exact free segment above
  · obtain ⟨name, inNames, rfl⟩ := List.mem_map.mp below
    exact @forall_mem_deepNames (fun name => '\\' ∉ name.toList) (by decide) name inNames

theorem makeDirs_deep (vacant : Disk.Vacant disk ⟨"/ww"⟩ [] "ww") :
    ∃ inside, (disk.hosting [] "ww" .nil).makeDirs deepSynthesis.folder.dir.text =
        (.ok (), disk.hosting [] "ww" inside) ∧ Disk.isDirAt inside deepNames := by
  have short : (RawText.descend "/ww" deepNames).utf8ByteSize < Disk.pathLimit := by
    rw [size_descend_deepNames (by decide) (by decide)]
    decide
  have passes : ¬Listing.nil.Barred deepNames := by
    intro barred
    obtain ⟨front, -, held, stands⟩ := barred
    rw [Listing.at?_nil (Listing.ne_nil_of_at?_leaf stands)] at stands
    contradiction
  have fits : Disk.Fits ⟨"/ww"⟩ deepNames := ⟨forall_mem_deepNames (by decide), short⟩
  obtain ⟨inside, made, -, extended⟩ :=
    (vacant.makeDirs_below Listing.linkless_nil trivial fits).2 passes
  exact ⟨inside, made, Listing.isDirAt_of_entryAt? (extended.way deepNames List.prefix_rfl).2⟩

/-- After the deep folder was made, a walk of the base comes upon it, and can not open it. -/
theorem search_hindered {listed : List Path} (vacant : Disk.Vacant disk ⟨"/ww"⟩ [] "ww")
    (hosted : world.disk = disk.hosting [] "ww" .nil) (ordered : world.disk.root.Ordered)
    (base : world.disk.reach true "//ww" = .ok (.taken ["ww"]))
    (chosen : (deepSynthesis.namedAfter .standard).selected world.disk doubledContext.base = .ok listed)
    (growth : Disk.GrownBy .standard world.disk
      ((deepSynthesis.namedAfter .standard).run doubledContext world).state.disk) :
    (Discovered.search (Discovered.targetOf .standard)
      ((deepSynthesis.namedAfter .standard).run doubledContext world).state.disk
      doubledContext).outcome ≠ .ok [] := by
  obtain ⟨inside, made, deep⟩ := makeDirs_deep vacant
  rw [← hosted] at made
  have onward := @Synthesis.run_onward _ doubledContext (deepSynthesis.namedAfter .standard) _ _ rfl
    chosen made
  generalize ((deepSynthesis.namedAfter .standard).run doubledContext world).state.disk = after
    at growth onward ⊢
  obtain ⟨grown, still⟩ := onward.dir ["ww"] inside (vacant.top inside)
  have found : after.node true doubledContext.base.text = .ok (.dir grown) :=
    Disk.node_of_reach (Disk.reach_grows (by decide) growth.grows base) still
  have entered : deepNames ∈ grown.dirs [Convention.standard.excludedDir] := by
    obtain ⟨below, stands⟩ := Disk.isDirAt_iff.mp deep
    obtain ⟨last, held⟩ :=
      onward.dir ("ww" :: deepNames) below ((vacant.at?_below inside deepNames).trans stands)
    have heldBelow := (Listing.at?_append still deepNames).symm.trans held
    refine (Listing.mem_dirs ((growth.ordered ordered).at? still)).mpr ⟨?_, ⟨last, heldBelow⟩, ?_⟩
    · rw [deepNames]
      exact List.cons_ne_nil "d" (List.replicate 2045 "d")
    · exact forall_mem_deepNames (by decide)
  have size : (RawText.descend "//ww" deepNames).utf8ByteSize = Disk.pathLimit :=
    size_descend_deepNames (by decide) (by decide)
  have long : ¬Walk.Openable [Convention.standard.excludedDir] doubledContext.base.text grown := by
    intro short
    exact absurd (short deepNames entered) (Nat.not_lt.mpr size.ge)
  have free : ¬doubledContext.base.hasSegment Convention.standard.excludedDir := by decide
  obtain ⟨names, -, -, failed⟩ :=
    @Discovered.search_error _ _ _ (Discovered.targetOf .standard) (by decide) free found long
  intro nothing
  exact absurd (nothing.symm.trans failed) (by simp)

theorem search_of_turns {one two three : Synthesis} {first : ChainRun World}
    (pairs : (turns convention context [one, two, three] world).Pairwise fun earlier later =>
      earlier.done.source? = some "synthesis" →
        (Discovered.search (Discovered.targetOf convention) later.before.disk context).outcome = .ok [])
    (ran : (full convention (one.namedAfter convention)).run context world = first)
    (generated : first.source? = some "synthesis") :
    (Discovered.search (Discovered.targetOf convention)
      ((full convention (two.namedAfter convention)).run context first.state).state.disk
      context).outcome = .ok [] := by
  subst ran
  rw [turns, turns, turns, turns, List.pairwise_cons] at pairs
  have behind := pairs.1
  simp only [List.mem_cons, forall_eq_or_imp] at behind
  exact behind.2.1 generated

/-- A search that had to generate a manifest, and after it one by name that fails instead of finding
nothing: in between a folder was made that can not be opened behind two slashes. -/
theorem turns_hindered :
    doubledWorld.disk.root.Linkless ∧ doubledWorld.disk.root.Ordered ∧
      IsPlainText Convention.standard.fileName ∧ doubledContext.mode = .standard ∧
      doubledContext.properties.hasKey Convention.standard.propertyKey = false ∧
      doubledContext.properties.hasKey Convention.standard.propertyAlias = false ∧
      doubledContext.base.Grounded ∧
      (∀ synthesis ∈ doubledSyntheses, synthesis.folder.dir.Grounded) ∧
      ¬(turns .standard doubledContext doubledSyntheses doubledWorld).Pairwise fun earlier later =>
        earlier.done.source? = some "synthesis" →
          (Discovered.search (Discovered.targetOf .standard) later.before.disk doubledContext).outcome =
            .ok [] := by
  refine ⟨Listing.Unlinked.linkless (by decide +kernel), by decide +kernel, by decide, rfl,
    by decide +kernel, by decide +kernel, by decide, ?_, ?_⟩
  · have beside : besideSynthesis.folder.dir.Grounded := by decide
    simp only [doubledSyntheses, List.forall_mem_cons, List.not_mem_nil, false_implies, implies_true]
    exact ⟨beside, grounded_deepSynthesis, beside, trivial⟩
  intro pairs
  -- The world after the first search is small enough to be looked at.
  let first := (full .standard (besideSynthesis.namedAfter .standard)).run doubledContext doubledWorld
  have generated : first.source? = some "synthesis" := by decide +kernel
  have linkless : first.state.disk.root.Linkless := Listing.Unlinked.linkless (by decide +kernel)
  have base : first.state.disk.reach true "//ww" = .ok (.taken ["ww"]) := by decide +kernel
  have hosted : first.state.disk = (first.state.disk.eraseAt ["ww"]).hosting [] "ww" .nil := by
    decide +kernel
  have vacant : Disk.Vacant (first.state.disk.eraseAt ["ww"]) ⟨"/ww"⟩ [] "ww" :=
    ⟨by decide, by decide +kernel⟩
  have nothing : (Declared.search (Declared.keysOf .standard) first.state.disk doubledContext).outcome =
      .ok [] ∧ (Discovered.search (Discovered.targetOf .standard) first.state.disk
        doubledContext).outcome = .ok [] := by decide +kernel
  have chosen : (deepSynthesis.namedAfter .standard).selected first.state.disk doubledContext.base =
      .ok [] := by decide +kernel
  have plain : IsPlainText Convention.standard.fileName := by decide
  have growth := Synthesis.run_grownBy plain linkless grounded_deepSynthesis doubledContext
  have found :=
    @search_of_turns doubledWorld doubledContext .standard _ deepSynthesis _ first pairs rfl generated
  have source := (@full_source_iff _ first.state _ (deepSynthesis.namedAfter .standard)).mpr nothing
  rw [full_state_of_source source] at found
  exact @search_hindered first.state _ _ vacant hosted (by decide +kernel) base chosen growth found

end Chain

end ManifestSearch
