import ManifestSearch.Proofs.Tree.Entries

/-!
What making directories and files changes. Whatever comes of it, making a directory adds directories
and nothing else; if it succeeds, what it adds lies on the way to the directory. Making a file adds
that file.
-/

namespace ManifestSearch.Disk

open ManifestSearch.Path (Spelled Start)

variable {disk middle after : Disk} {root : Listing} {path base : Path} {start : Start}
  {segments : List (List Char)} {text content name : String} {node : Node}
  {directory place top : Location} {throughLast : Bool} {links : Nat} {steps : List Step}

/-! The last step of a resolution. -/

theorem travel_into_missing (missing : root.at? (place ++ [name]) = none) :
    travel root throughLast links place [.into name] =
      if name.utf8ByteSize > nameLimit then .error .nameTooLong else .ok (.free place name) := by
  rw [travel_eq, advance, missing]
  simp

theorem travel_into_halting : travel root false links place [.into name] =
    if name.utf8ByteSize > nameLimit then .error .nameTooLong
    else .ok (if root.at? (place ++ [name]) = none then .free place name
      else .taken (place ++ [name])) := by
  rw [travel_eq, advance]
  split
  · rfl
  · split
    · rename_i missing
      simp [missing]
    · rename_i held
      rw [advance, held]
      rfl
    · rename_i held
      simp [held]
    · rename_i held
      simp [held]

/-! One entry more. -/

theorem entryAt?_putAt {location : Location} (inDir : isDirAt disk.root directory)
    (missing : disk.root.at? (directory ++ [name]) = none) (bare : node.Bare) :
    (disk.putAt directory name node).root.entryAt? location =
      if location = directory ++ [name] then some node.entry else disk.root.entryAt? location := by
  obtain ⟨inside, found⟩ := isDirAt_iff.mp inDir
  have free : inside.find? name = none := by
    rwa [Listing.at?_append found, Listing.at?_singleton] at missing
  exact Listing.entryAt?_change found fun back => Listing.entryAt?_put (by simp [free]) bare

/-- A tree with one node more, at a place that a text led to before it was there and leads to
now. -/
structure Gains (before after : Disk) (text : String) (directory : Location) (name : String)
    (node : Node) : Prop where
  free : before.reach false text = .ok (.free directory name)
  inDir : isDirAt before.root directory
  missing : before.root.at? (directory ++ [name]) = none
  reached : after.reach true text = .ok (.taken (directory ++ [name]))
  placed : after.root.at? (directory ++ [name]) = some node
  entries : ∀ location, after.root.entryAt? location =
    if location = directory ++ [name] then some node.entry else before.root.entryAt? location
  only : after = { before with root := after.root }

theorem gains_putAt (rooted : startsAtRoot text) (bare : node.Bare)
    (kind : ∀ target, node ≠ .leaf (.link target))
    (free : disk.reach false text = .ok (.free directory name)) :
    Gains disk (disk.putAt directory name node) text directory name node := by
  obtain ⟨inDir, missing⟩ := free_of_reachBy free
  obtain ⟨inside, found⟩ := isDirAt_iff.mp inDir
  have placed : (disk.putAt directory name node).root.at? (directory ++ [name]) = some node :=
    at?_putAt found node
  obtain ⟨noNul, short, leads⟩ := reach_ok rooted free
  refine ⟨free, inDir, missing, ?_, placed, fun location => entryAt?_putAt inDir missing bare, rfl⟩
  exact (reach_of_startsAtRoot rooted noNul short true).trans
    (leads.taken_of_free (by simp) (putAt_grows missing node) placed kind).travel

theorem bare_nil : (Node.dir .nil).Bare := by
  intro inside same
  cases same
  rfl

theorem bare_leaf (held : Leaf) : (Node.leaf held).Bare := by
  intro inside same
  contradiction

theorem makeDir_ok (made : disk.makeDir text = .ok after) :
    ∃ directory name, disk.reachBy false text (Step.ofText text) = .ok (.free directory name) ∧
      after = disk.putAt directory name (.dir .nil) := by
  rw [makeDir] at made
  split at made
  · contradiction
  · contradiction
  · contradiction
  · rename_i directory name reached
    cases made
    exact ⟨directory, name, reached, rfl⟩

theorem reachBy_of_spelled (spelling : path.Spelled start segments) :
    disk.reachBy throughLast path.text (Step.ofText path.text) = disk.reach throughLast path.text := by
  rw [reach, Step.ofText_of_spelled spelling, Step.all_of_spelled spelling]

theorem fileSpot_of_spelled (spelling : path.Spelled start segments) :
    disk.fileSpot throughLast path.text = disk.reach throughLast path.text := by
  have noTrailing := Step.not_trailing_of_spelled spelling
  rw [fileSpot, if_neg (by simpa [asksForDir] using noTrailing)]

theorem reach_of_fileSpot {spot : Spot} (reached : disk.fileSpot throughLast text = .ok spot) :
    disk.reach throughLast text = .ok spot := by
  rw [fileSpot] at reached
  split at reached
  · split at reached <;> contradiction
  · exact reached

theorem makeDir_gains (spelling : path.Spelled start segments)
    (made : disk.makeDir path.text = .ok after) :
    ∃ directory name, Gains disk after path.text directory name (.dir .nil) := by
  obtain ⟨directory, name, free, rfl⟩ := makeDir_ok made
  rw [reachBy_of_spelled spelling] at free
  exact ⟨directory, name, gains_putAt spelling.startsAtRoot bare_nil (by simp) free⟩

theorem create_ok (made : disk.create text content = .ok after) :
    ∃ directory name, disk.reach false text = .ok (.free directory name) ∧
      after = disk.putAt directory name (.leaf (.file content)) := by
  rw [create] at made
  split at made
  · contradiction
  · contradiction
  · contradiction
  · rename_i directory name spot
    cases made
    exact ⟨directory, name, reach_of_fileSpot spot, rfl⟩

theorem create_gains (rooted : startsAtRoot text) (made : disk.create text content = .ok after) :
    ∃ directory name, after = disk.putAt directory name (.leaf (.file content)) ∧
      Gains disk after text directory name (.leaf (.file content)) := by
  obtain ⟨directory, name, spot, rfl⟩ := create_ok made
  exact ⟨directory, name, rfl, gains_putAt rooted (bare_leaf _) (by simp) spot⟩

theorem create_grows (made : disk.create text content = .ok after) :
    Listing.Grows disk.root after.root := by
  obtain ⟨directory, name, spot, rfl⟩ := create_ok made
  exact putAt_grows (free_of_reachBy spot).2 _

theorem link_ok {target : String} (made : disk.link text target = .ok after) :
    ∃ directory name, disk.reach false text = .ok (.free directory name) ∧
      after = disk.putAt directory name (.leaf (.link target)) := by
  rw [link] at made
  split at made
  · contradiction
  · contradiction
  · contradiction
  · rename_i directory name spot
    cases made
    exact ⟨directory, name, spot, rfl⟩

theorem link_grows {target : String} (made : disk.link text target = .ok after) :
    Listing.Grows disk.root after.root := by
  obtain ⟨directory, name, spot, rfl⟩ := link_ok made
  exact putAt_grows (free_of_reachBy spot).2 _

/-! Directories made one inside the other. -/

/-- A change of the tree alone, and there of directories that were not there. -/
structure AddsDirs (before after : Disk) : Prop where
  tree : Listing.AddsDirs before.root after.root
  only : after = { before with root := after.root }

theorem AddsDirs.refl (disk : Disk) : AddsDirs disk disk := ⟨.refl _, rfl⟩

theorem AddsDirs.trans (first : AddsDirs disk middle) (second : AddsDirs middle after) :
    AddsDirs disk after := by
  refine ⟨first.tree.trans second.tree, ?_⟩
  rw [second.only, first.only]

theorem makeDir_addsDirs (made : disk.makeDir text = .ok after) : AddsDirs disk after := by
  obtain ⟨directory, name, reached, rfl⟩ := makeDir_ok made
  obtain ⟨inDir, missing⟩ := free_of_reachBy reached
  refine ⟨fun location => ?_, rfl⟩
  rw [entryAt?_putAt inDir missing bare_nil]
  by_cases here : location = directory ++ [name]
  · subst here
    exact .inr ⟨Listing.entryAt?_eq_none.mpr missing, by simp [Node.entry]⟩
  · exact .inl (if_neg here)

/-- Making directories adds directories, whether or not it succeeds. -/
theorem makeDirs_addsDirs {outcome : Except Fault Unit}
    (made : disk.makeDirs text = (outcome, after)) : AddsDirs disk after :=
  makeThrough_relates AddsDirs AddsDirs.refl AddsDirs.trans (fun _ => makeDir_addsDirs) made

theorem fits_of_notFound (refused : disk.reachBy throughLast text steps = .error .notFound) :
    '\x00' ∉ text.toList ∧ text.utf8ByteSize < pathLimit := by
  rw [reachBy] at refused
  split at refused
  · simp at refused
  · rename_i noNul
    refine ⟨by simpa using noNul, ?_⟩
    split at refused
    · rename_i empty
      subst empty
      decide
    · split at refused
      · simp at refused
      · omega

theorem notFound_of_makeDir (refused : disk.makeDir text = .error .notFound) :
    disk.reachBy false text (Step.ofText text) = .error .notFound := by
  rw [makeDir] at refused
  split at refused
  · rename_i reached
    cases refused
    exact reached
  · simp at refused
  · simp at refused
  · simp at refused

/-- A directory was made at once, or after those above it, or there was one already. -/
theorem makeThrough_cons_ok {texts : List String}
    (made : disk.makeThrough (text :: texts) = (.ok (), after)) :
    disk.makeDir text = .ok after ∨
      disk.makeDir text = .error .notFound ∧
        (∃ middle, disk.makeThrough texts = (.ok (), middle) ∧
          (middle.makeDir text = .ok after ∨ after = middle ∧ middle.isDir text)) ∨
      after = disk ∧ disk.isDir text := by
  rw [makeThrough] at made
  split at made
  · rename_i first
    cases made
    exact .inl first
  · rename_i first
    split at made
    · simp at made
    · rename_i middle higher
      refine .inr (.inl ⟨first, middle, higher, ?_⟩)
      split at made
      · rename_i second
        cases made
        exact .inl second
      · split at made
        · rename_i stands
          cases made
          exact .inr ⟨rfl, stands⟩
        · simp at made
  · split at made
    · rename_i stands
      cases made
      exact .inr (.inr ⟨rfl, stands⟩)
    · simp at made

/-- Making a directory and those above it ends with a directory at its path, and all that is new
lies on the way to it. What is new at all is empty. -/
theorem makeThrough_ok {fuel : Nat} (spelling : path.Spelled start segments)
    (enough : segments.length < fuel)
    (made : disk.makeThrough (RawText.ancestors fuel path.text) = (.ok (), after)) :
    ∃ top, after.reach true path.text = .ok (.taken top) ∧
      Listing.Extends top disk.root after.root ∧
      (after = disk ∨ after.root.at? top = some (.dir .nil)) := by
  induction fuel generalizing path start segments after with
  | zero => omega
  | succ fuel ih =>
      rw [RawText.ancestors, if_neg spelling.text_ne_empty] at made
      rcases makeThrough_cons_ok made with first | ⟨first, middle, higher, second⟩ | ⟨rfl, stands⟩
      · obtain ⟨directory, name, gains⟩ := makeDir_gains spelling first
        refine ⟨directory ++ [name], gains.reached, ?_, .inr gains.placed⟩
        exact (Listing.Extends.refl gains.inDir).step (Listing.entryAt?_eq_none.mpr gains.missing)
          gains.entries
      · have refused := notFound_of_makeDir first
        obtain ⟨noNul, short⟩ := fits_of_notFound refused
        rw [reachBy_of_spelled spelling] at refused
        rcases List.eq_nil_or_concat segments with rfl | ⟨front, last, rfl⟩
        · -- The root is never missing.
          rw [reach_of_startsAtRoot spelling.startsAtRoot noNul short,
            Step.all_of_spelled spelling] at refused
          contradiction
        rw [List.concat_eq_append] at spelling enough
        obtain ⟨above, other, parent, spelledAbove, -⟩ := spelling.parent?
        simp only [parent] at higher
        obtain ⟨top, reached, extended, kind⟩ := ih spelledAbove (by simp at enough; omega) higher
        have dir := Listing.isDirAt_of_entryAt? (extended.way top List.prefix_rfl).2
        obtain ⟨left, -, goesOn⟩ := reach_onward spelledAbove reached dir
        have onward (throughLast : Bool) : middle.reach throughLast path.text =
            travel middle.root throughLast left top [.into (String.ofList last)] :=
          goesOn throughLast path start [last] spelling (by simp) noNul short
        rcases kind with rfl | empty
        · -- The directory above was there, so the first attempt cannot have missed it.
          rw [onward false, travel_into_halting] at refused
          split at refused <;> simp at refused
        have missing : middle.root.at? (top ++ [String.ofList last]) = none := by
          rw [Listing.at?_append empty]
          exact Listing.at?_nil (by simp)
        simp only [travel_into_missing missing] at onward
        rcases second with second | ⟨-, stands⟩
        · obtain ⟨directory, name, gains⟩ := makeDir_gains spelling second
          have spot := (onward false).symm.trans gains.free
          split at spot
          · contradiction
          · cases spot
            refine ⟨_, gains.reached, ?_, .inr gains.placed⟩
            exact extended.step (Listing.entryAt?_eq_none.mpr missing) gains.entries
        · obtain ⟨ending, reached, -⟩ := reach_of_isDir spelling.startsAtRoot stands
          rw [onward true] at reached
          split at reached <;> simp at reached
      · obtain ⟨top, reached, dir, -⟩ := reach_of_isDir spelling.startsAtRoot stands
        exact ⟨top, reached, .refl dir, .inl rfl⟩

theorem makeDirs_ok (spelling : path.Spelled start segments)
    (made : disk.makeDirs path.text = (.ok (), after)) :
    ∃ top, after.reach true path.text = .ok (.taken top) ∧
      Listing.Extends top disk.root after.root := by
  have enough := spelling.length_le
  rw [String.length_toList] at enough
  obtain ⟨top, reached, extended, -⟩ := makeThrough_ok spelling (by omega) made
  exact ⟨top, reached, extended⟩

/-- A file whose path goes on from a directory by one segment is made in that directory. -/
theorem create_in_dir {other : Start} {last : List Char}
    (spelling : base.Spelled start segments) (longer : path.Spelled other (segments ++ [last]))
    (reached : disk.reach true base.text = .ok (.taken top)) (dir : isDirAt disk.root top)
    (made : disk.create path.text content = .ok after) :
    Gains disk after path.text top (String.ofList last) (.leaf (.file content)) := by
  obtain ⟨directory, name, -, gains⟩ := create_gains longer.startsAtRoot made
  obtain ⟨noNul, short, -⟩ := reach_ok longer.startsAtRoot gains.free
  obtain ⟨left, -, goesOn⟩ := reach_onward spelling reached dir
  have spot := (goesOn false _ _ _ longer (by simp) noNul short).symm.trans gains.free
  rw [Step.ofSegments, List.map_singleton, travel_into_halting] at spot
  split at spot
  · contradiction
  · split at spot
    · cases spot
      exact gains
    · simp at spot

end ManifestSearch.Disk
