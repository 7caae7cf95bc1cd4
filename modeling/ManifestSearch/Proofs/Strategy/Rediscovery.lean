import ManifestSearch.Proofs.Strategy.Sprouting

/-!
A search by name in a tree that has grown. Where such a search found nothing, there is no file to find
after any number of searches of its convention: what they generate has other names. It ends with
nothing again, unless it comes upon a directory too deep to be opened; what they made could be opened
under the text it was made under, so this takes a base that is written with a slash more.
-/

namespace ManifestSearch

open ManifestSearch.Path (Spelled Start)

variable {convention : Convention} {before after : Disk} {base longer : Path} {start : Start}
  {segments : List (List Char)} {top names : Location} {inside grown : Listing}
  {skipped : List String} {context : Context}

/-- Of the texts that spell the same segments, those with one slash at the front are shortest. -/
theorem Path.Spelled.size_le (rooted : base.Spelled .rooted segments)
    (other : longer.Spelled start segments) : base.text.utf8ByteSize ≤ longer.text.utf8ByteSize := by
  have atRoot := other.atRoot
  cases start with
  | relative => contradiction
  | rooted =>
      have same : base.text = longer.text := String.toList_inj.mp (rooted.text.trans other.text.symm)
      rw [same]
  | network =>
      have whole : longer.text = "/" ++ base.text :=
        String.toList_inj.mp (by simp [rooted.text, other.text, Path.spelled])
      rw [whole, String.utf8ByteSize_append]
      exact Nat.le_add_left _ _

namespace Disk.GrownBy

/-- A walk that starts where a text leads to that has one slash at its front goes to its end, if it
did so before. -/
theorem openable (growth : GrownBy convention before after) (linkless : before.root.Linkless)
    (ordered : before.root.Ordered) (spelling : base.Spelled .rooted segments)
    (reached : before.reach true base.text = .ok (.taken top))
    (stands : before.root.at? top = some (.dir inside))
    (still : after.root.at? top = some (.dir grown))
    (short : Walk.Openable skipped base.text inside) : Walk.Openable skipped base.text grown := by
  intro names member
  obtain ⟨occupied, ⟨deeper, held⟩, passed⟩ :=
    (Listing.mem_dirs ((growth.ordered ordered).at? still)).mp member
  have entry : after.root.entryAt? (top ++ names) = some .dir := by
    rw [Listing.entryAt?, Listing.at?_append still, held]
    rfl
  rcases growth.entries _ _ entry with old | ⟨path, start, spelled, size⟩
  · obtain ⟨below, stood⟩ := isDirAt_iff.mp (Listing.isDirAt_of_entryAt? old)
    rw [Listing.at?_append stands] at stood
    exact short names ((Listing.mem_dirs (ordered.at? stands)).mpr ⟨occupied, ⟨below, stood⟩, passed⟩)
  · -- The directory was made under a text that spells the same names.
    obtain ⟨place, there, segmentsTop⟩ := place_of_spelled linkless spelling reached
    cases there
    rw [segmentsOf, List.map_append, ← segmentsOf, ← segmentsOf, segmentsTop] at spelled
    have plain (name : String) (member : name ∈ names) : Path.IsSegment name.toList :=
      spelled.plain _ (List.mem_append_right segments (List.mem_map_of_mem member))
    exact Nat.lt_of_le_of_lt ((spelling.descend plain).size_le spelled) size

/-- So a walk that comes upon a directory too deep to be opened, and did not before, starts where a
text with two slashes at its front leads to. -/
theorem doubled_of_long (growth : GrownBy convention before after) (linkless : before.root.Linkless)
    (ordered : before.root.Ordered) (grounded : base.Grounded)
    (reached : before.reach true base.text = .ok (.taken top))
    (stands : before.root.at? top = some (.dir inside))
    (still : after.root.at? top = some (.dir grown))
    (short : Walk.Openable skipped base.text inside)
    (long : ¬Walk.Openable skipped base.text grown) :
    Path.start base.text.toList = .network := by
  obtain ⟨start, segments, spelling, -⟩ := grounded.spelled
  rw [spelling.text, Path.start_spelled spelling.atRoot spelling.plain]
  cases start with
  | relative => exact absurd rfl spelling.atRoot
  | network => rfl
  | rooted => exact absurd (growth.openable linkless ordered spelling reached stands still short) long

/-- No file is new that has the name of the convention. -/
theorem filter_filesBelow (growth : GrownBy convention before after)
    (linkless : before.root.Linkless) (ordered : before.root.Ordered) (grounded : base.Grounded)
    (stands : before.root.at? top = some (.dir inside))
    (still : after.root.at? top = some (.dir grown))
    (nothing : (Walk.filesBelow before skipped base.text inside).filter
      (Discovered.targetOf convention).isNameOf = []) :
    (Walk.filesBelow after skipped base.text grown).filter
      (Discovered.targetOf convention).isNameOf = [] := by
  rw [List.filter_eq_nil_iff] at nothing ⊢
  intro file member
  obtain ⟨names, held, inLeaves, -, rfl⟩ := Walk.mem_filesBelow.mp member
  obtain ⟨occupied, found, passed⟩ :=
    (Listing.mem_leaves ((growth.ordered ordered).at? still)).mp inLeaves
  have entry : after.root.entryAt? (top ++ names) = some (.leaf held) :=
    Listing.entryAt?_eq_leaf.mpr ((Listing.at?_append still names).trans found)
  cases held with
  | link target => exact absurd (Listing.entryAt?_eq_leaf.mp entry) (growth.linkless linkless _ _)
  | file content =>
      rcases growth.entries _ _ entry with old | draws
      · have stood := (Listing.at?_append stands names).symm.trans (Listing.entryAt?_eq_leaf.mp old)
        exact nothing _ (Walk.mem_filesBelow.mpr ⟨names, .file content,
          (Listing.mem_leaves (ordered.at? stands)).mpr ⟨occupied, stood, passed⟩, rfl, rfl⟩)
      · obtain ⟨plain, tame, tag, last⟩ := draws
        obtain ⟨start, segments, spelling, free⟩ := grounded.spelled
        have plainBelow (name : String) (member : name ∈ names) : Path.IsSegment name.toList :=
          plain name (List.mem_append_right top member)
        rw [List.getLast?_append_of_ne_nil _ occupied] at last
        rw [spelling.ofText_descend free plainBelow
            fun name member => tame name (List.mem_append_right top member),
          Discovered.Target.isNameOf, spelling.fileName?_descend occupied plainBelow, last]
        simp [Discovered.targetOf, convention.drawn_ne tag]

end Disk.GrownBy

namespace Discovered

variable {target : Target} {disk : Disk}

/-- A search by name comes upon no directory too deep to be opened. -/
def Unhindered (target : Target) (disk : Disk) (base : Path) : Prop :=
  base.hasSegment target.excluded ∨ Walk.Clear ⟨base, [target.excluded]⟩ disk

instance (target : Target) (disk : Disk) (base : Path) : Decidable (Unhindered target disk base) :=
  inferInstanceAs (Decidable (_ ∨ _))

/-- What a search by name comes to where there is no file to find: the empty list, or an error at a
directory too deep to be opened. Only from a base with two slashes at its front there can be one that
could be made, under a text with one slash. -/
structure EmptyUnlessHindered (target : Target) (disk : Disk) (context : Context) : Prop where
  empty : Unhindered target disk context.base → (search target disk context).outcome = .ok []
  hindered : ¬Unhindered target disk context.base →
    Path.start context.base.text.toList = .network ∧
      ∃ text, Disk.pathLimit ≤ text.utf8ByteSize ∧
        (search target disk context).outcome = .error (.tree text .nameTooLong)

theorem EmptyUnlessHindered.of_empty (unhindered : Unhindered target disk context.base)
    (empty : (search target disk context).outcome = .ok []) :
    EmptyUnlessHindered target disk context :=
  ⟨fun _ => empty, fun hindered => absurd unhindered hindered⟩

theorem search_of_grownBy (growth : Disk.GrownBy convention before after)
    (linkless : before.root.Linkless) (ordered : before.root.Ordered)
    (grounded : context.base.Grounded)
    (nothing : (search (targetOf convention) before context).outcome = .ok []) :
    EmptyUnlessHindered (targetOf convention) after context := by
  by_cases excluded : context.base.hasSegment (targetOf convention).excluded
  · exact .of_empty (.inl excluded) (search_of_excluded excluded)
  · rw [search_of_not_excluded excluded] at nothing
    let walk : Walk := ⟨context.base, [(targetOf convention).excluded]⟩
    cases walked : walk.files before with
    | error failure => simp [walk, walked, Except.map] at nothing
    | ok all =>
        simp only [walk, walked, Except.map, Except.ok.injEq] at nothing
        obtain ⟨node, found⟩ := Walk.node_of_files walked
        obtain ⟨top, reached, stands⟩ := Disk.node_ok grounded.2 found
        have again := Disk.reach_grows grounded.2 growth.grows reached
        cases node with
        | leaf held =>
            have still := Disk.node_of_reach again (growth.grows.leaf top held stands)
            have clear : walk.Clear after := fun inside dir => by
              cases still.symm.trans dir
            cases (Walk.files_of_leaf walk found).symm.trans walked
            refine .of_empty (.inr clear) ?_
            rw [search_of_not_excluded excluded, Walk.files_of_leaf walk still]
            exact congrArg Except.ok nothing
        | dir inside =>
            obtain ⟨grown, still⟩ := growth.grows.dir top inside stands
            have refound := Disk.node_of_reach again still
            rw [Walk.files_ok grounded.2 found walked] at nothing
            have none := growth.filter_filesBelow linkless ordered grounded stands still nothing
            by_cases short : Walk.Openable walk.skipped context.base.text grown
            · have clear : walk.Clear after := fun inside dir => by
                cases refound.symm.trans dir
                exact short
              refine .of_empty (.inr clear) ?_
              rw [search_of_not_excluded excluded, Walk.files_eq grounded.2 refound short, Except.map,
                none]
            · have hindered : ¬Unhindered (targetOf convention) after context.base := by
                intro unhindered
                rcases unhindered with inExcluded | clear
                · exact excluded inExcluded
                · exact short (clear grown refound)
              refine ⟨fun unhindered => absurd unhindered hindered, fun _ => ?_⟩
              obtain ⟨names, -, size, failed⟩ := search_error grounded.2 excluded refound short
              exact ⟨growth.doubled_of_long linkless ordered grounded reached stands still
                (Walk.openable_of_files grounded.2 found walked) short, _, size, failed⟩

end Discovered

end ManifestSearch
