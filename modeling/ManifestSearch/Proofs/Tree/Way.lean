import ManifestSearch.Proofs.Tree.Linkless
import ManifestSearch.Proofs.Tree.Vacancy

/-!
How far names lead. The names of a place lead to what stands there, or to a directory that has no entry
of the next name, or to a leaf while names are left (`Listing.Way`). In a directory of one's own without
links, the text that goes on by these names is resolved just so.
-/

namespace ManifestSearch

open ManifestSearch.Path (Spelled Start)

variable {listing inside below before after : Listing} {names front back location : Location}
  {name last content : String} {node : Node} {held : Leaf}

namespace Listing

/-- How far names lead in a tree. -/
inductive Way (listing : Listing) : Location → Prop where
  | stands {names : Location} {node : Node} (held : listing.at? names = some node) : Way listing names
  | missing {front back : Location} {name : String} {inside : Listing}
      (above : listing.at? front = some (.dir inside)) (free : inside.find? name = none) :
      Way listing (front ++ name :: back)
  | barred {front back : Location} {held : Leaf} (above : listing.at? front = some (.leaf held))
      (further : back ≠ []) : Way listing (front ++ back)

theorem way (listing : Listing) (names : Location) : listing.Way names := by
  induction names generalizing listing with
  | nil => exact .stands rfl
  | cons name names ih =>
      have deeper (back : Location) : listing.at? (name :: back) = _ := at?_cons name back listing
      cases step : listing.find? name with
      | none =>
          have top : listing.at? [] = some (.dir listing) := rfl
          exact .missing top step
      | some node =>
          simp only [step, Option.bind_some] at deeper
          cases node with
          | leaf held =>
              by_cases last : names = []
              · subst last
                exact .stands (deeper [])
              · exact .barred (deeper []) last
          | dir inside =>
              cases ih inside with
              | stands held => exact .stands ((deeper names).trans held)
              | missing above free => exact .missing ((deeper _).trans above) free
              | barred above further => exact .barred ((deeper _).trans above) further

/-- A leaf stands at a place or on the way to it. -/
def Barred (listing : Listing) (names : Location) : Prop :=
  ∃ front, front <+: names ∧ ∃ held, listing.at? front = some (.leaf held)

theorem not_barred_of_isDirAt (dir : Disk.isDirAt listing names) : ¬listing.Barred names := by
  intro barred
  obtain ⟨front, above, held, stands⟩ := barred
  obtain ⟨inside, found⟩ := Disk.isDirAt_iff.mp (isDirAt_above dir above)
  simp [found] at stands

theorem not_barred_of_missing (above : listing.at? front = some (.dir inside))
    (free : inside.find? name = none) (back : Location) :
    ¬listing.Barred (front ++ name :: back) := by
  intro barred
  obtain ⟨part, within, held, stands⟩ := barred
  rcases List.prefix_or_prefix_of_prefix within (List.prefix_append front _) with short | ⟨rest, rfl⟩
  · exact not_barred_of_isDirAt (Disk.isDirAt_iff.mpr ⟨inside, above⟩) ⟨part, short, held, stands⟩
  · rw [at?_append above] at stands
    obtain ⟨other, rest, rfl⟩ := List.exists_cons_of_ne_nil (ne_nil_of_at?_leaf stands)
    obtain ⟨rfl, -⟩ := List.cons_prefix_cons.mp ((List.prefix_append_right_inj front).mp within)
    simp [at?_cons, free] at stands

/-- The content of the file at a place. -/
def contentAt? (listing : Listing) (location : Location) : Option String :=
  match listing.entryAt? location with
  | some (.leaf (.file content)) => some content
  | _ => none

theorem contentAt?_eq_some : listing.contentAt? location = some content ↔
    listing.at? location = some (.leaf (.file content)) := by
  rw [← entryAt?_eq_leaf, contentAt?]
  split
  · rename_i found
    simp [found]
  · rename_i other
    simp only [reduceCtorEq, false_iff]
    exact other content

theorem contentAt?_nil (location : Location) : nil.contentAt? location = none := by
  cases location with
  | nil => rfl
  | cons name rest => rfl

theorem contentAt?_of_not_barred (passes : ¬listing.Barred names) (within : location <+: names) :
    listing.contentAt? location = none := by
  cases found : listing.contentAt? location with
  | none => rfl
  | some content => exact absurd ⟨location, within, _, contentAt?_eq_some.mp found⟩ passes

theorem linkless_nil : nil.Linkless := by
  intro location target link
  rw [at?_nil (ne_nil_of_at?_leaf link)] at link
  contradiction

theorem Linkless.file_of_leaf (linkless : listing.Linkless)
    (stands : listing.at? location = some (.leaf held)) : ∃ content, held = .file content := by
  cases held with
  | file content => exact ⟨content, rfl⟩
  | link target => exact absurd stands (linkless location target)

theorem Extends.linkless (extends_ : Extends names before after) (linkless : before.Linkless) :
    after.Linkless := by
  intro location target link
  rw [← entryAt?_eq_leaf] at link
  by_cases within : location <+: names
  · simp [(extends_.way location within).2] at link
  · rw [extends_.rest location within, entryAt?_eq_leaf] at link
    exact linkless location target link

end Listing

namespace Disk

variable {disk : Disk} {path : Path} {directory : Location} {start : Start}
  {segments : List (List Char)} {throughLast : Bool}

/-- Names below a path that a file system takes. -/
structure Fits (path : Path) (names : Location) : Prop where
  valid : ∀ name ∈ names, IsEntryName name
  short : (RawText.descend path.text names).utf8ByteSize < pathLimit

namespace Vacant

theorem occupied (vacant : Vacant disk path directory name) (spelling : path.Spelled start segments) :
    segments ≠ [] := by
  rintro rfl
  obtain ⟨noNul, short, -⟩ := reach_ok vacant.grounded.2 vacant.free
  have top := vacant.free
  rw [reach_of_startsAtRoot vacant.grounded.2 noNul short, Step.all_of_spelled spelling] at top
  exact absurd (Leads.arrive.travel.symm.trans top) (by simp)

theorem fits_front (vacant : Vacant disk path directory name) (fits : Fits path (front ++ back)) :
    Fits path front := by
  obtain ⟨start, segments, spelling, -⟩ := vacant.grounded.spelled
  have valid (other : String) (member : other ∈ front) : IsEntryName other :=
    fits.valid other (List.mem_append_left back member)
  have filled := (spelling.descend fun other member => (valid other member).segment).text_ne_empty
  have size := RawText.le_size_descend filled fun other member =>
    (fits.valid other (List.mem_append_right front member)).segment
  rw [← RawText.descend_append] at size
  exact ⟨valid, Nat.lt_of_le_of_lt (Nat.le_trans (Nat.le_add_right _ _) size) fits.short⟩

theorem at?_below (vacant : Vacant disk path directory name) (inside : Listing) (back : Location) :
    (disk.hosting directory name inside).root.at? (directory ++ name :: back) = inside.at? back :=
  at?_hosting vacant.inDir back

theorem fits_of_prefix (vacant : Vacant disk path directory name) (fits : Fits path names)
    (within : front <+: names) : Fits path front := by
  obtain ⟨back, rfl⟩ := within
  exact vacant.fits_front fits

theorem top (vacant : Vacant disk path directory name) (inside : Listing) :
    (disk.hosting directory name inside).root.at? (directory ++ [name]) = some (.dir inside) :=
  vacant.at?_below inside []

/-- Texts that go on from the directory are resolved from it. -/
theorem reach_below (vacant : Vacant disk path directory name) (inside : Listing)
    (fits : Fits path names) :
    ∃ links, ∀ throughLast,
      (disk.hosting directory name inside).reach throughLast (RawText.descend path.text names) =
        travel (disk.hosting directory name inside).root throughLast links (directory ++ [name])
          (names.map .into) := by
  by_cases empty : names = []
  · subst empty
    exact ⟨0, fun throughLast => (vacant.reach inside throughLast).trans Leads.arrive.travel.symm⟩
  obtain ⟨start, segments, spelling, -⟩ := vacant.grounded.spelled
  have top := isDirAt_iff.mpr ⟨inside, vacant.top inside⟩
  obtain ⟨left, -, goesOn⟩ := reach_descend_onward spelling (vacant.reach inside true) top
  exact ⟨left, fun throughLast => goesOn throughLast names empty
    (fun other member => (fits.valid other member).segment)
    (fun other member => (fits.valid other member).noNul) fits.short⟩

theorem reach_stands (vacant : Vacant disk path directory name) (linkless : inside.Linkless)
    (fits : Fits path names) (held : inside.at? names = some node) (throughLast : Bool) :
    (disk.hosting directory name inside).reach throughLast (RawText.descend path.text names) =
      .ok (.taken (directory ++ name :: names)) := by
  obtain ⟨links, goesOn⟩ := vacant.reach_below inside fits
  rw [goesOn, List.append_cons directory name names]
  exact travel_names fits.valid (vacant.top inside) held
    fun _ target link => linkless names target (link ▸ held)

theorem reach_missing (vacant : Vacant disk path directory name) (fits : Fits path (front ++ last :: back))
    (above : inside.at? front = some (.dir below)) (free : below.find? last = none)
    (throughLast : Bool) :
    (disk.hosting directory name inside).reach throughLast
        (RawText.descend path.text (front ++ last :: back)) =
      if back = [] then .ok (.free (directory ++ name :: front) last) else .error .notFound := by
  obtain ⟨links, goesOn⟩ := vacant.reach_below inside fits
  have missing : (disk.hosting directory name inside).root.at?
      ((directory ++ [name]) ++ front ++ [last]) = none := by
    rw [List.append_assoc, List.append_assoc, List.singleton_append, vacant.at?_below,
      Listing.at?_append above, Listing.at?_singleton, free]
  have size : last.utf8ByteSize ≤ nameLimit := (fits.valid last (by simp)).fits
  rw [goesOn, List.map_append, travel_down (vacant.top inside) (isDirAt_iff.mpr ⟨below, above⟩)
    fun other member => (fits.valid other (List.mem_append_left _ member)).fits]
  rw [List.map_cons, travel_eq, advance_into size, missing]
  simp

theorem reach_barred (vacant : Vacant disk path directory name) (linkless : inside.Linkless)
    (fits : Fits path (front ++ back)) (above : inside.at? front = some (.leaf held))
    (further : back ≠ []) (throughLast : Bool) :
    (disk.hosting directory name inside).reach throughLast (RawText.descend path.text (front ++ back)) =
      .error .notDirectory := by
  obtain ⟨links, goesOn⟩ := vacant.reach_below inside fits
  obtain ⟨content, rfl⟩ := linkless.file_of_leaf above
  obtain ⟨way, last, rfl⟩ : ∃ way last, front = way ++ [last] :=
    ⟨_, _, (List.dropLast_concat_getLast (Listing.ne_nil_of_at?_leaf above)).symm⟩
  obtain ⟨below, found⟩ := Listing.at?_front above (by simp)
  have stands : (disk.hosting directory name inside).root.at?
      ((directory ++ [name]) ++ way ++ [last]) = some (.leaf (.file content)) := by
    rw [List.append_assoc, List.append_assoc, List.singleton_append, vacant.at?_below, above]
  have size : last.utf8ByteSize ≤ nameLimit := (fits.valid last (by simp)).fits
  rw [goesOn, List.append_assoc, List.map_append,
    travel_down (vacant.top inside) (isDirAt_iff.mpr ⟨below, found⟩)
      fun other member => (fits.valid other (by simp [member])).fits]
  rw [List.map_append, List.map_singleton, List.singleton_append, travel_eq, advance_into size, stands]
  simp [further]

/-- What a text names that goes on from the directory is what the directory holds there. -/
theorem node_below_iff (vacant : Vacant disk path directory name) (linkless : inside.Linkless)
    (fits : Fits path names) :
    (disk.hosting directory name inside).node throughLast (RawText.descend path.text names) = .ok node ↔
      inside.at? names = some node := by
  cases inside.way names with
  | @stands _ other held =>
      have placed := (vacant.at?_below inside names).trans held
      simp [node_of_reach (vacant.reach_stands linkless fits held throughLast) placed, held]
  | @missing front back last below above free =>
      have absent : inside.at? (front ++ last :: back) = none := by
        rw [Listing.at?_append above, Listing.at?_cons, free]
        rfl
      rw [Disk.node, vacant.reach_missing fits above free, absent]
      by_cases alone : back = []
      · simp [alone]
      · simp [alone]
  | @barred front back other above further =>
      have absent : inside.at? (front ++ back) = none := by
        cases found : inside.at? (front ++ back) with
        | none => rfl
        | some node =>
            obtain ⟨below, dir⟩ := Listing.at?_front found further
            simp [dir] at above
      rw [Disk.node, vacant.reach_barred linkless fits above further, absent]
      simp

theorem isDir_below_iff (vacant : Vacant disk path directory name) (linkless : inside.Linkless)
    (fits : Fits path names) :
    (disk.hosting directory name inside).isDir (RawText.descend path.text names) ↔
      isDirAt inside names := by
  rw [isDirAt_iff, Disk.isDir]
  split
  · rename_i below found
    have held := (vacant.node_below_iff linkless fits).mp found
    simp [held]
  · rename_i other
    refine iff_of_false (by simp) fun holds => ?_
    obtain ⟨below, held⟩ := holds
    exact other below ((vacant.node_below_iff linkless fits).mpr held)

theorem isFile_below_iff (vacant : Vacant disk path directory name) (linkless : inside.Linkless)
    (fits : Fits path names) :
    (disk.hosting directory name inside).isFile (RawText.descend path.text names) ↔
      ∃ held, inside.at? names = some (.leaf held) := by
  rw [Disk.isFile]
  split
  · rename_i content found
    have held := (vacant.node_below_iff linkless fits).mp found
    simp [held]
  · rename_i other
    refine iff_of_false (by simp) fun holds => ?_
    obtain ⟨held, stands⟩ := holds
    obtain ⟨content, rfl⟩ := linkless.file_of_leaf stands
    exact other content ((vacant.node_below_iff linkless fits).mpr stands)

theorem read_below (vacant : Vacant disk path directory name) (linkless : inside.Linkless)
    (fits : Fits path names) (stands : inside.at? names = some (.leaf (.file content))) :
    (disk.hosting directory name inside).read (RawText.descend path.text names) = .ok content := by
  rw [Disk.read, (vacant.node_below_iff linkless fits).mpr stands]

end Vacant

end Disk

end ManifestSearch
