import ManifestSearch.Proofs.Tree.Erasing

/-!
A directory of one's own. Where a path leads to a free name a directory can be put, with any entries in
it (`Disk.hosting`). The path leads to it, whatever is in it; what is made or erased below it changes its
entries and nothing else; and once it is erased the disk is the one that there was (`eraseAt_hosting`).
-/

namespace ManifestSearch

variable {name other : String} {added : Node} {listing inside : Listing} {location directory back : Location}
  {edit : Listing → Listing}

namespace Listing

theorem put_of_find? (ordered : listing.Ordered) (found : listing.find? name = some added) :
    listing.put name added = listing := by
  have step {first : String} (next : Node) {rest : Listing} (before : ∀ later ∈ rest.names, first < later)
      (found : (cons first next rest).find? name = some added)
      (later : rest.find? name = some added → rest.put name added = rest) :
      (cons first next rest).put name added = cons first next rest := by
    rw [find?_cons] at found
    rw [put_cons]
    split at found
    · rename_i here
      cases found
      subst here
      rw [if_neg Std.lt_irrefl, if_pos rfl]
    · rename_i different
      have behind := before name (mem_names_of_find? found)
      rw [if_neg (String.lt_asymm behind), if_neg different, later found]
  induction listing with
  | nil => simp [find?] at found
  | leaf first held rest ih => exact step (.leaf held) ordered.1 found (ih ordered.2)
  | dir first below rest _ ih => exact step (.dir below) ordered.1 found (ih ordered.2.2)

theorem change_of_same (ordered : listing.Ordered) (found : listing.at? location = some (.dir inside))
    (same : edit inside = inside) : listing.change edit location = listing := by
  induction location generalizing listing with
  | nil =>
      cases found
      exact same
  | cons name location ih =>
      obtain ⟨below, step, deeper⟩ := find?_of_at?_dir found
      simp only [change, step, ih (ordered.find? step) deeper]
      exact put_of_find? ordered step

/-- What changes below a new directory might as well have been in it from the start. -/
theorem change_put_dir (here : Disk.isDirAt listing directory) :
    (listing.change (put name (.dir inside)) directory).change edit (directory ++ name :: back) =
      listing.change (put name (.dir (inside.change edit back))) directory := by
  induction directory generalizing listing with
  | nil => simp [change, find?_put, put_put]
  | cons first directory ih =>
      obtain ⟨around, found⟩ := Disk.isDirAt_iff.mp here
      obtain ⟨below, step, deeper⟩ := find?_of_at?_dir found
      simp [change, step, find?_put, put_put, ih (Disk.isDirAt_iff.mpr ⟨around, deeper⟩)]

end Listing

namespace Disk

variable {disk : Disk} {path : Path} {throughLast : Bool}

/-- The working directory is one of the tree, unless it was taken away. -/
def HereStands (disk : Disk) : Prop := disk.adrift ∨ isDirAt disk.root disk.here

instance (disk : Disk) : Decidable disk.HereStands := inferInstanceAs (Decidable (_ ∨ _))

/-- A disk with one directory more, and with some entries in it. -/
def hosting (disk : Disk) (directory : Location) (name : String) (inside : Listing) : Disk :=
  disk.putAt directory name (.dir inside)

theorem at?_hosting (here : isDirAt disk.root directory) (back : Location) :
    (disk.hosting directory name inside).root.at? (directory ++ name :: back) = inside.at? back := by
  obtain ⟨around, found⟩ := isDirAt_iff.mp here
  rw [List.append_cons, hosting, Listing.at?_append (at?_putAt found _)]

theorem putAt_hosting (here : isDirAt disk.root directory) :
    (disk.hosting directory name inside).putAt (directory ++ name :: back) other added =
      disk.hosting directory name (inside.change (Listing.put other added) back) := by
  simp only [hosting, putAt, Listing.change_put_dir here]

/-- Nothing at a free name or below it is the working directory. -/
theorem adrift_beyond (stands : disk.HereStands) (missing : disk.root.at? (directory ++ [name]) = none)
    (back : Location) :
    (disk.adrift || (directory ++ name :: back).isPrefixOf disk.here) = disk.adrift := by
  rcases stands with lost | here
  · simp [lost]
  · have beyond : ¬directory ++ name :: back <+: disk.here := by
      intro above
      have longer : directory ++ [name] <+: disk.here :=
        (List.append_cons .. ▸ List.prefix_append _ back).trans above
      obtain ⟨below, found⟩ := isDirAt_iff.mp (Listing.isDirAt_above here longer)
      simp [missing] at found
    rw [← List.isPrefixOf_iff_prefix] at beyond
    simp [beyond]

theorem eraseAt_below (here : isDirAt disk.root directory) (stands : disk.HereStands)
    (missing : disk.root.at? (directory ++ [name]) = none) :
    (disk.hosting directory name inside).eraseAt (directory ++ name :: (back ++ [other])) =
      disk.hosting directory name (inside.change (Listing.erase other) back) := by
  have whole : directory ++ name :: (back ++ [other]) = (directory ++ name :: back) ++ [other] := by simp
  have kept := adrift_beyond stands missing (back ++ [other])
  rw [whole] at kept ⊢
  simp only [eraseAt, List.getLast?_concat, List.dropLast_concat, hosting, putAt,
    Listing.change_put_dir here, kept]

/-- Erasing the directory leaves the disk as it was, whatever was in it. -/
theorem eraseAt_hosting (ordered : disk.root.Ordered) (stands : disk.HereStands)
    (here : isDirAt disk.root directory) (missing : disk.root.at? (directory ++ [name]) = none) :
    (disk.hosting directory name inside).eraseAt (directory ++ [name]) = disk := by
  obtain ⟨around, found⟩ := isDirAt_iff.mp here
  have free : around.find? name = none := by
    rwa [Listing.at?_append found, Listing.at?_singleton] at missing
  have restored : disk.root.change (fun inside' => (inside'.put name (.dir inside)).erase name) directory =
      disk.root := Listing.change_of_same ordered found (Listing.erase_put free)
  simp only [eraseAt, List.getLast?_concat, List.dropLast_concat, hosting, putAt, Listing.change_change,
    restored, adrift_beyond stands missing []]

/-- A path leads to a free name in a directory. -/
structure Vacant (disk : Disk) (path : Path) (directory : Location) (name : String) : Prop where
  grounded : path.Grounded
  free : disk.reach false path.text = .ok (.free directory name)

namespace Vacant

theorem inDir (vacant : Vacant disk path directory name) : isDirAt disk.root directory :=
  (free_of_reachBy vacant.free).1

theorem missing (vacant : Vacant disk path directory name) :
    disk.root.at? (directory ++ [name]) = none :=
  (free_of_reachBy vacant.free).2

theorem reach (vacant : Vacant disk path directory name) (inside : Listing) (throughLast : Bool) :
    (disk.hosting directory name inside).reach throughLast path.text =
      .ok (.taken (directory ++ [name])) := by
  obtain ⟨noNul, short, leads⟩ := reach_ok vacant.grounded.2 vacant.free
  obtain ⟨around, found⟩ := isDirAt_iff.mp vacant.inDir
  rw [reach_of_startsAtRoot vacant.grounded.2 noNul short]
  exact (leads.taken_of_free (by simp) (putAt_grows vacant.missing _) (at?_putAt found _)
    (by simp)).travel

theorem node (vacant : Vacant disk path directory name) (inside : Listing) (throughLast : Bool) :
    (disk.hosting directory name inside).node throughLast path.text = .ok (.dir inside) :=
  node_of_reach (vacant.reach inside throughLast) (at?_hosting vacant.inDir [])

theorem isDir (vacant : Vacant disk path directory name) (inside : Listing) :
    (disk.hosting directory name inside).isDir path.text := by
  simp only [Disk.isDir, vacant.node inside true]

/-- A file that is created by a name in the directory is put there, and removed by that name again. -/
theorem create_hosting {content : String} {after : Disk} (vacant : Vacant disk path directory name)
    (plain : Path.IsSegment other.toList)
    (made : (disk.hosting directory name inside).create (RawText.join path.text other) content =
      .ok after) :
    inside.find? other = none ∧
      after = disk.hosting directory name (inside.put other (.leaf (.file content))) ∧
      (disk.HereStands → after.remove (RawText.join path.text other) =
        disk.hosting directory name inside) := by
  obtain ⟨start, segments, spelling, -⟩ := vacant.grounded.spelled
  have longer := spelling.enter plain
  have top : isDirAt (disk.hosting directory name inside).root (directory ++ [name]) :=
    isDirAt_iff.mpr ⟨inside, at?_hosting vacant.inDir []⟩
  have gains := create_in_dir spelling longer (vacant.reach inside true) top made
  rw [String.ofList_toList] at gains
  obtain ⟨_, _, free, whole⟩ := create_ok made
  cases gains.free.symm.trans free
  have below : inside.find? other = none := by
    rw [← Listing.at?_singleton, ← at?_hosting vacant.inDir, List.append_cons]
    exact gains.missing
  obtain ⟨noNul, short, leads⟩ := reach_ok longer.startsAtRoot gains.free
  have halting := leads.taken_of_free id (create_grows made) gains.placed (by simp)
  have taken := (reach_of_startsAtRoot longer.startsAtRoot noNul short false).trans halting.travel
  have put := whole.trans (putAt_hosting vacant.inDir)
  refine ⟨below, put, fun stands => ?_⟩
  rw [remove, taken, put, List.append_assoc]
  refine (eraseAt_below vacant.inDir stands vacant.missing).trans ?_
  rw [Listing.change, Listing.change, Listing.erase_put below]

/-- The directory is removed by its path, with all that is in it. -/
theorem remove_hosting (vacant : Vacant disk path directory name) (ordered : disk.root.Ordered)
    (stands : disk.HereStands) (inside : Listing) :
    (disk.hosting directory name inside).remove path.text = disk := by
  rw [remove, vacant.reach inside false]
  exact eraseAt_hosting ordered stands vacant.inDir vacant.missing

end Vacant

/-- Making a directory fills a free name. -/
theorem vacant_of_makeDir {after : Disk} (grounded : path.Grounded)
    (made : disk.makeDir path.text = .ok after) :
    ∃ directory name, Vacant disk path directory name ∧ after = disk.hosting directory name .nil := by
  obtain ⟨start, segments, spelling, -⟩ := grounded.spelled
  obtain ⟨directory, name, free, whole⟩ := makeDir_ok made
  rw [reachBy_of_spelled spelling] at free
  exact ⟨directory, name, ⟨grounded, free⟩, whole⟩

/-- Where there is a directory, no directories are made. -/
theorem makeDirs_of_isDir (grounded : path.Grounded) (dir : disk.isDir path.text) :
    disk.makeDirs path.text = (.ok (), disk) := by
  obtain ⟨start, segments, spelling, -⟩ := grounded.spelled
  obtain ⟨ending, reached, -, noNul, short⟩ := reach_of_isDir grounded.2 dir
  obtain ⟨-, -, leads⟩ := reach_ok grounded.2 reached
  obtain ⟨halt, halting, -⟩ := leads.halting
  have taken := (reach_of_startsAtRoot grounded.2 noNul short false).trans halting.travel
  have exists_ : disk.makeDir path.text = .error .exists := by
    rw [makeDir, reachBy_of_spelled spelling, taken]
  rw [makeDirs, RawText.ancestors, if_neg spelling.text_ne_empty, makeThrough, exists_]
  exact if_pos dir

end Disk

end ManifestSearch
