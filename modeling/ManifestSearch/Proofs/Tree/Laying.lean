import ManifestSearch.Proofs.Tree.Way

/-!
Directories and files laid out in a directory of one's own without links. Directories are made one inside
the other exactly if no file stands on the way (`Vacant.makeDirs_below`), and a file is written in a
directory exactly if no directory has its name (`Vacant.write_below`). What is refused changes nothing.
-/

namespace ManifestSearch.Disk

open Listing (Extends)

variable {disk : Disk} {path : Path} {inside below : Listing} {names front back directory : Location}
  {text name last content : String} {node : Node} {held : Leaf} {fault : Fault} {texts : List String}

theorem makeThrough_refused (refused : disk.makeDir text = .error fault) (other : fault ≠ .notFound) :
    disk.makeThrough (text :: texts) =
      if disk.isDir text then (.ok (), disk) else (.error fault, disk) := by
  rw [makeThrough, refused]
  split
  · contradiction
  · rename_i same
    cases same
    contradiction
  · rename_i same
    cases same
    rfl

namespace Vacant

theorem spelled_below (vacant : Vacant disk path directory name) (fits : Fits path names) :
    ∃ start segments, segments ≠ [] ∧ path.Spelled start segments ∧
      Path.Spelled ⟨RawText.descend path.text names⟩ start (segments ++ segmentsOf names) := by
  obtain ⟨start, segments, spelling, -⟩ := vacant.grounded.spelled
  exact ⟨start, segments, vacant.occupied spelling, spelling,
    spelling.descend fun other member => (fits.valid other member).segment⟩

theorem reachBy_below (vacant : Vacant disk path directory name) (fits : Fits path names) :
    (disk.hosting directory name inside).reachBy false (RawText.descend path.text names)
        (Step.ofText (RawText.descend path.text names)) =
      (disk.hosting directory name inside).reach false (RawText.descend path.text names) := by
  obtain ⟨start, segments, -, -, longer⟩ := vacant.spelled_below fits
  exact reachBy_of_spelled longer

theorem makeDir_stands (vacant : Vacant disk path directory name) (linkless : inside.Linkless)
    (fits : Fits path names) (held : inside.at? names = some node) :
    (disk.hosting directory name inside).makeDir (RawText.descend path.text names) = .error .exists := by
  rw [makeDir, vacant.reachBy_below fits, vacant.reach_stands linkless fits held]

theorem makeDir_barred (vacant : Vacant disk path directory name) (linkless : inside.Linkless)
    (fits : Fits path (front ++ back)) (above : inside.at? front = some (.leaf held))
    (further : back ≠ []) :
    (disk.hosting directory name inside).makeDir (RawText.descend path.text (front ++ back)) =
      .error .notDirectory := by
  rw [makeDir, vacant.reachBy_below fits, vacant.reach_barred linkless fits above further]

theorem makeDir_missing (vacant : Vacant disk path directory name)
    (fits : Fits path (front ++ last :: back)) (above : inside.at? front = some (.dir below))
    (free : below.find? last = none) :
    (disk.hosting directory name inside).makeDir (RawText.descend path.text (front ++ last :: back)) =
      if back = [] then
        .ok (disk.hosting directory name (inside.change (Listing.put last (.dir .nil)) front))
      else .error .notFound := by
  rw [makeDir, vacant.reachBy_below fits, vacant.reach_missing fits above free]
  by_cases alone : back = []
  · simp only [if_pos alone, putAt_hosting vacant.inDir]
  · simp only [if_neg alone]

/-- A directory is made in one that was there or was made for it. -/
theorem makeDir_onward {grown : Listing} (vacant : Vacant disk path directory name)
    (fits : Fits path (front ++ [last])) (ordered : grown.Ordered)
    (extended : Extends front inside grown) (missing : inside.at? (front ++ [last]) = none) :
    ∃ further, (disk.hosting directory name grown).makeDir (RawText.descend path.text (front ++ [last])) =
        .ok (disk.hosting directory name further) ∧
      further.Ordered ∧ Extends (front ++ [last]) inside further := by
  have entry := (extended.way front List.prefix_rfl).2
  obtain ⟨below, above⟩ := isDirAt_iff.mp (Listing.isDirAt_of_entryAt? entry)
  have free := (extended.rest _ (Listing.beyond_concat front last)).trans
    (Listing.entryAt?_eq_none.mpr missing)
  have absent : below.find? last = none := by
    rwa [Listing.entryAt?_eq_none, Listing.at?_append above, Listing.at?_singleton] at free
  refine ⟨_, vacant.makeDir_missing fits above absent, ?_, extended.step free fun location => ?_⟩
  · exact ordered.change fun _ kept => kept.put fun inside same => by cases same; trivial
  · exact Listing.entryAt?_change above fun back => Listing.entryAt?_put (by simp [absent]) bare_nil

/-- What comes of making the directories on the way to a place: nothing if a file stands on the way, and
else those that miss. -/
def LaysWay (disk : Disk) (directory : Location) (name : String) (inside : Listing) (names : Location)
    (made : Except Fault Unit × Disk) : Prop :=
  (inside.Barred names → ∃ fault, made = (.error fault, disk.hosting directory name inside)) ∧
  (¬inside.Barred names → ∃ grown, made = (.ok (), disk.hosting directory name grown) ∧
    grown.Ordered ∧ Extends names inside grown)

theorem laysWay_barred (vacant : Vacant disk path directory name) (linkless : inside.Linkless)
    (fits : Fits path names) (barred : inside.Barred names) (other : fault ≠ .notFound)
    (refused : (disk.hosting directory name inside).makeDir (RawText.descend path.text names) =
      .error fault) :
    LaysWay disk directory name inside names
      ((disk.hosting directory name inside).makeThrough (RawText.descend path.text names :: texts)) := by
  have noDir : ¬isDirAt inside names := fun here => Listing.not_barred_of_isDirAt here barred
  rw [makeThrough_refused refused other, if_neg ((vacant.isDir_below_iff linkless fits).not.mpr noDir)]
  exact ⟨fun _ => ⟨fault, rfl⟩, fun passes => absurd barred passes⟩

theorem makeThrough_dir (vacant : Vacant disk path directory name) (linkless : inside.Linkless)
    (fits : Fits path names) (held : inside.at? names = some (.dir below)) :
    (disk.hosting directory name inside).makeThrough (RawText.descend path.text names :: texts) =
      (.ok (), disk.hosting directory name inside) := by
  have dir := (vacant.isDir_below_iff linkless fits).mpr (isDirAt_iff.mpr ⟨below, held⟩)
  rw [makeThrough_refused (vacant.makeDir_stands linkless fits held) (by simp), if_pos dir]

theorem makeDirs_dir (vacant : Vacant disk path directory name) (linkless : inside.Linkless)
    (fits : Fits path names) (held : inside.at? names = some (.dir below)) :
    (disk.hosting directory name inside).makeDirs (RawText.descend path.text names) =
      (.ok (), disk.hosting directory name inside) := by
  obtain ⟨start, segments, -, -, longer⟩ := vacant.spelled_below fits
  rw [makeDirs, RawText.ancestors, if_neg longer.text_ne_empty]
  exact vacant.makeThrough_dir linkless fits held

theorem makeThrough_below {fuel : Nat} (vacant : Vacant disk path directory name)
    (linkless : inside.Linkless) (ordered : inside.Ordered) (fits : Fits path names)
    (enough : names.length < fuel) :
    LaysWay disk directory name inside names ((disk.hosting directory name inside).makeThrough
      (RawText.ancestors fuel (RawText.descend path.text names))) := by
  -- The way to the directory above has one name less, and one unit of fuel is left for it less.
  induction fuel generalizing names with
  | zero => omega
  | succ fuel ih =>
      obtain ⟨start, segments, occupied, spelling, longer⟩ := vacant.spelled_below fits
      rw [RawText.ancestors, if_neg longer.text_ne_empty]
      cases inside.way names with
      | @stands _ node held =>
          cases node with
          | dir below =>
              have here := isDirAt_iff.mpr ⟨below, held⟩
              rw [vacant.makeThrough_dir linkless fits held]
              exact ⟨fun barred => absurd barred (Listing.not_barred_of_isDirAt here),
                fun _ => ⟨inside, rfl, ordered, .refl here⟩⟩
          | leaf leaf =>
              have barred : inside.Barred names := ⟨names, List.prefix_rfl, leaf, held⟩
              exact vacant.laysWay_barred linkless fits barred (by simp)
                (vacant.makeDir_stands linkless fits held)
      | @barred front back leaf above further =>
          have barred : inside.Barred (front ++ back) := ⟨front, List.prefix_append front back, leaf, above⟩
          exact vacant.laysWay_barred linkless fits barred (by simp)
            (vacant.makeDir_barred linkless fits above further)
      | @missing front back last below above free =>
          have passes := Listing.not_barred_of_missing above free
          refine ⟨fun barred => absurd barred (passes back), fun _ => ?_⟩
          have absent (rest : Location) : inside.at? (front ++ last :: rest) = none := by
            rw [Listing.at?_append above, Listing.at?_cons, free]
            rfl
          rcases List.eq_nil_or_concat back with rfl | ⟨middle, final, rfl⟩
          · have way := Extends.refl (isDirAt_iff.mpr ⟨below, above⟩)
            obtain ⟨grown, made, kept, extended⟩ := vacant.makeDir_onward fits ordered way (absent [])
            exact ⟨grown, by rw [makeThrough, made], kept, extended⟩
          · -- The directory above misses too, and is made first.
            have first := vacant.makeDir_missing fits above free
            have missing := absent (middle ++ [final])
            have whole : front ++ last :: middle.concat final = (front ++ last :: middle) ++ [final] := by
              simp
            rw [if_neg (by simp), whole] at first
            rw [← List.concat_eq_append, whole] at missing
            rw [whole] at fits enough ⊢
            have parent := spelling.parent?_descend occupied fun other member =>
              (fits.valid other member).segment
            rw [List.length_append, List.length_singleton] at enough
            obtain ⟨above, higher, middleOrdered, way⟩ :=
              (ih (vacant.fits_front fits) (by omega)).2 (passes middle)
            obtain ⟨grown, made, kept, extended⟩ :=
              vacant.makeDir_onward fits middleOrdered way missing
            refine ⟨grown, ?_, kept, extended⟩
            rw [makeThrough, first]
            simp only [parent, higher, made]

theorem makeDirs_below (vacant : Vacant disk path directory name) (linkless : inside.Linkless)
    (ordered : inside.Ordered) (fits : Fits path names) :
    LaysWay disk directory name inside names
      ((disk.hosting directory name inside).makeDirs (RawText.descend path.text names)) := by
  obtain ⟨start, segments, -, -, longer⟩ := vacant.spelled_below fits
  have size : segments.length + names.length ≤ (RawText.descend path.text names).length := by
    simpa only [segmentsOf, List.length_append, List.length_map, String.length_toList] using
      longer.length_le
  exact vacant.makeThrough_below linkless ordered fits (by omega)

/-! Writing a file. -/

theorem write_dir (vacant : Vacant disk path directory name) (linkless : inside.Linkless)
    (fits : Fits path names) (held : inside.at? names = some (.dir below)) (content : String) :
    (disk.hosting directory name inside).write (RawText.descend path.text names) content =
      .error .isDirectory := by
  obtain ⟨start, segments, -, -, longer⟩ := vacant.spelled_below fits
  have placed := (vacant.at?_below inside names).trans held
  rw [write, fileSpot_of_spelled longer, vacant.reach_stands linkless fits held]
  simp only [placed]

/-- A file is written in its directory, in place of the one that has its name. -/
theorem write_below (vacant : Vacant disk path directory name) (linkless : inside.Linkless)
    (fits : Fits path (front ++ [last])) (above : inside.at? front = some (.dir below))
    (noDir : ∀ deeper, below.find? last ≠ some (.dir deeper)) (content : String) :
    (disk.hosting directory name inside).write (RawText.descend path.text (front ++ [last])) content =
      .ok (disk.hosting directory name
        (inside.change (Listing.put last (.leaf (.file content))) front)) := by
  obtain ⟨start, segments, -, -, longer⟩ := vacant.spelled_below fits
  rw [write, fileSpot_of_spelled longer]
  cases step : below.find? last with
  | none =>
      rw [vacant.reach_missing fits above step, if_pos rfl]
      exact congrArg Except.ok (putAt_hosting vacant.inDir)
  | some node =>
      cases node with
      | dir deeper => exact absurd step (noDir deeper)
      | leaf held =>
          have stands : inside.at? (front ++ [last]) = some (.leaf held) := by
            rw [Listing.at?_append above, Listing.at?_singleton, step]
          have placed := (vacant.at?_below inside (front ++ [last])).trans stands
          have whole : directory ++ name :: (front ++ [last]) = (directory ++ name :: front) ++ [last] := by
            simp
          rw [vacant.reach_stands linkless fits stands]
          rw [whole] at placed ⊢
          simp only [placed, List.getLast?_concat, List.dropLast_concat, putAt_hosting vacant.inDir]

end Vacant

end ManifestSearch.Disk
