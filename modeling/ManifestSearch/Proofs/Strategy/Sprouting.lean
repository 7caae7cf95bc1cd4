import ManifestSearch.Proofs.Chain.Effects
import ManifestSearch.Proofs.Tree.Linkless

/-!
How a tree without links grows under the searches of one convention. New files have names that the
convention generates, which never are its own file name, and new directories are spelled by texts
that can be opened (`GrownBy`). Every search keeps this up, also one that fails half way.
-/

namespace ManifestSearch

open ManifestSearch.Path (Spelled Start)

variable {convention : Convention} {disk before middle after : Disk} {path : Path} {start : Start}
  {segments : List (List Char)} {location : Location} {name text content : String} {node : Node}
  {world next : World} {context : Context} {synthesis : Synthesis} {folder : TempFolder}

namespace Convention

/-- A name under which a file is generated. -/
def drawn (convention : Convention) (tag : Tag) : String :=
  convention.affixes.1 ++ tag.text ++ convention.affixes.2

/-- A generated name is longer than the file name that it is made from. -/
theorem length_drawn (convention : Convention) (tag : Tag) :
    (convention.drawn tag).toList.length = convention.fileName.toList.length + 7 := by
  have six : tag.text.toList.length = 6 := by
    rw [Tag.text, String.toList_ofList, List.length_map, tag.six]
  rw [drawn, String.toList_append, String.toList_append, List.length_append, List.length_append, six,
    affixes]
  split
  · rename_i first stem ending cut
    rw [Text.cutLast?_eq_some cut]
    simp
    omega
  · simp

theorem drawn_ne (convention : Convention) (tag : Tag) :
    convention.drawn tag ≠ convention.fileName := by
  intro same
  have size := convention.length_drawn tag
  rw [same] at size
  omega

/-- A place for a generated file. Every name on the way is one that a path spells as it is. -/
structure Draws (convention : Convention) (location : Location) : Prop where
  plain : ∀ name ∈ location, Path.IsSegment name.toList
  tame : ∀ name ∈ location, IsTame name
  last : ∃ tag, location.getLast? = some (convention.drawn tag)

/-- What may be new at a place. -/
def Sprouts (convention : Convention) (location : Location) : Entry → Prop
  | .dir => ∃ path start, Spelled path start (segmentsOf location) ∧
      path.text.utf8ByteSize < Disk.pathLimit
  | .leaf (.file _) => convention.Draws location
  | .leaf (.link _) => False

end Convention

namespace Disk

/-- A tree grown by searches of a convention. -/
structure GrownBy (convention : Convention) (before after : Disk) : Prop where
  grows : Listing.Grows before.root after.root
  ordered : before.root.Ordered → after.root.Ordered
  entries : ∀ location entry, after.root.entryAt? location = some entry →
    before.root.entryAt? location = some entry ∨ convention.Sprouts location entry

namespace GrownBy

theorem refl (convention : Convention) (disk : Disk) : GrownBy convention disk disk :=
  ⟨.refl _, id, fun _ _ stands => .inl stands⟩

theorem trans (first : GrownBy convention before middle) (second : GrownBy convention middle after) :
    GrownBy convention before after := by
  refine ⟨first.grows.trans second.grows, second.ordered ∘ first.ordered, ?_⟩
  intro location entry stands
  rcases second.entries location entry stands with stood | new
  · exact first.entries location entry stood
  · exact .inr new

theorem linkless (grown : GrownBy convention before after) (linkless : before.root.Linkless) :
    after.root.Linkless := by
  intro location target link
  rcases grown.entries location _ (Listing.entryAt?_eq_leaf.mpr link) with stood | new
  · exact linkless location target (Listing.entryAt?_eq_leaf.mp stood)
  · exact new

theorem of_gains {directory : Location} (gains : Gains before after text directory name node)
    (made : after = before.putAt directory name node)
    (inner : ∀ inside, node = .dir inside → inside.Ordered)
    (sprouts : convention.Sprouts (directory ++ [name]) node.entry) :
    GrownBy convention before after := by
  refine ⟨?_, ?_, ?_⟩
  · rw [made]
    exact putAt_grows gains.missing node
  · intro ordered
    rw [made]
    exact putAt_ordered ordered inner
  · intro location entry stands
    rw [gains.entries] at stands
    split at stands
    · rename_i here
      cases stands
      exact .inr (here ▸ sprouts)
    · exact .inl stands

end GrownBy

theorem makeDir_grownBy (convention : Convention) (linkless : disk.root.Linkless)
    (spelling : path.Spelled start segments) (made : disk.makeDir path.text = .ok after) :
    GrownBy convention disk after := by
  obtain ⟨directory, name, reached, whole⟩ := makeDir_ok made
  rw [reachBy_of_spelled spelling] at reached
  have gains := gains_putAt spelling.startsAtRoot bare_nil (by simp) reached
  rw [← whole] at gains
  refine .of_gains gains whole (fun inside same => by cases same; trivial) ?_
  obtain ⟨location, there, names⟩ := place_of_spelled linkless spelling reached
  cases there
  exact ⟨path, start, names ▸ spelling, (reach_ok spelling.startsAtRoot reached).2.1⟩

end Disk

theorem RawText.parent?_root (spelling : path.Spelled start []) : parent? path.text = none := by
  have atRoot := spelling.atRoot
  have whole : path.text = String.ofList (Path.spelled start []) :=
    String.toList_inj.mp (spelling.text.trans String.toList_ofList.symm)
  rw [whole]
  cases start with
  | relative => contradiction
  | rooted => decide
  | network => decide

/-- What is made on the way to a path are paths in the one spelling too. -/
theorem RawText.spelled_of_mem_ancestors {fuel : Nat} (spelling : path.Spelled start segments)
    (member : text ∈ ancestors fuel path.text) :
    ∃ start segments, Spelled ⟨text⟩ start segments := by
  induction fuel generalizing path start segments with
  | zero => contradiction
  | succ fuel ih =>
      rw [ancestors, if_neg spelling.text_ne_empty] at member
      rcases List.mem_cons.mp member with rfl | member
      · exact ⟨start, segments, spelling⟩
      · rcases List.eq_nil_or_concat segments with rfl | ⟨front, last, rfl⟩
        · rw [parent?_root spelling] at member
          contradiction
        · rw [List.concat_eq_append] at spelling
          obtain ⟨above, other, parent, spelledAbove, -⟩ := spelling.parent?
          rw [parent] at member
          exact ih spelledAbove member

namespace Disk

theorem makeDirs_grownBy {outcome : Except Fault Unit} (convention : Convention)
    (linkless : disk.root.Linkless) (spelling : path.Spelled start segments)
    (made : disk.makeDirs path.text = (outcome, after)) : GrownBy convention disk after := by
  refine makeThrough_relates
    (fun before after => before.root.Linkless → GrownBy convention before after)
    (fun disk _ => .refl convention disk) ?_ ?_ made linkless
  · intro first middle last below further linkless
    have grown := below linkless
    exact grown.trans (further (grown.linkless linkless))
  · intro disk text grown member made linkless
    obtain ⟨other, above, spelled⟩ := RawText.spelled_of_mem_ancestors spelling member
    exact makeDir_grownBy convention linkless spelled made

end Disk

namespace Convention

/-- A generated name is one segment of a path, and has no backslash in it. -/
theorem isSegment_drawn (plain : IsPlainText convention.fileName) (tag : Tag) :
    Path.IsSegment (convention.drawn tag).toList ∧ IsTame (convention.drawn tag) :=
  have ⟨stemPlain, endingPlain⟩ := affixes_plain plain
  isSegment_generated tag stemPlain endingPlain

theorem draws_of_segments {tag : Tag} (plain : ∀ segment ∈ segments, Path.IsSegment segment)
    (free : ∀ segment ∈ segments, '\\' ∉ segment) (drawn : IsPlainText convention.fileName)
    (names : segmentsOf location = segments ++ [(convention.drawn tag).toList]) :
    convention.Draws location := by
  obtain ⟨segment, tame⟩ := convention.isSegment_drawn drawn tag
  have each (name : String) (member : name ∈ location) :
      Path.IsSegment name.toList ∧ IsTame name := by
    have inside : name.toList ∈ segments ++ [(convention.drawn tag).toList] :=
      names ▸ List.mem_map_of_mem member
    rcases List.mem_append.mp inside with above | last
    · exact ⟨plain _ above, free _ above⟩
    · rw [List.mem_singleton] at last
      exact ⟨last ▸ segment, by rw [IsTame, last]; exact tame⟩
  refine ⟨fun name member => (each name member).1, fun name member => (each name member).2, tag, ?_⟩
  have last := congrArg List.getLast? names
  rw [segmentsOf, List.getLast?_map, List.getLast?_concat] at last
  obtain ⟨name, stands, same⟩ := Option.map_eq_some_iff.mp last
  rw [stands, String.toList_inj.mp same]

end Convention

namespace TempFolder

theorem create_grownBy {tag : Tag} (plain : IsPlainText convention.fileName)
    (linkless : disk.root.Linkless) (grounded : folder.dir.Grounded)
    (made : disk.create
      (place folder.dir.text convention.affixes.1 convention.affixes.2 tag) content = .ok after) :
    Disk.GrownBy convention disk after := by
  obtain ⟨start, segments, spelling, free⟩ := grounded.spelled
  have longer := spelling.enter (convention.isSegment_drawn plain tag).1
  obtain ⟨directory, name, whole, gains⟩ := Disk.create_gains longer.startsAtRoot made
  obtain ⟨location, there, names⟩ := Disk.place_of_spelled linkless longer gains.free
  cases there
  exact .of_gains gains whole (by simp)
    (Convention.draws_of_segments spelling.plain free plain names)

/-- A try to write a file in a folder, whether or not it succeeds. -/
theorem writeNew_grownBy {outcome : Except Failure Path} (plain : IsPlainText convention.fileName)
    (linkless : world.disk.root.Linkless) (grounded : folder.dir.Grounded)
    (written : folder.writeNew convention.affixes.1 convention.affixes.2 content world =
      (outcome, next)) :
    Disk.GrownBy convention world.disk next.disk := by
  obtain ⟨start, segments, spelling, -⟩ := grounded.spelled
  cases outcome with
  | ok file =>
      obtain ⟨grown, tag, dirs, -, created⟩ := writeNew_made written
      have first := Disk.makeDirs_grownBy convention linkless spelling dirs
      exact first.trans (create_grownBy plain (first.linkless linkless) grounded created)
  | error failure =>
      obtain ⟨made, dirs⟩ := writeNew_failed written
      exact Disk.makeDirs_grownBy convention linkless spelling dirs

end TempFolder

namespace Synthesis

theorem run_grownBy (plain : IsPlainText convention.fileName)
    (linkless : world.disk.root.Linkless) (grounded : synthesis.folder.dir.Grounded)
    (context : Context) :
    Disk.GrownBy convention world.disk
      ((synthesis.namedAfter convention).run context world).state.disk := by
  rw [run]
  split
  · exact .refl convention world.disk
  · split
    · exact .refl convention world.disk
    · rename_i listed chosen
      rw [write]
      split
      · rename_i failure next written
        exact TempFolder.writeNew_grownBy plain linkless grounded written
      · rename_i file next written
        exact TempFolder.writeNew_grownBy plain linkless grounded written

end Synthesis

end ManifestSearch
