import ManifestSearch.Proofs.Tree.Below
import ManifestSearch.Proofs.Walk.Leaves
import ManifestSearch.Walk

/-!
What a walk of a directory finds. It comes upon the files among the leaves of the tree, in their
order, unless it enters a directory whose text is too long to be opened, which ends it.
-/

namespace ManifestSearch.Walk

open ManifestSearch.Path (Spelled Start)

def listed (disk : Disk) (above : String) (entries : List (Location × Leaf)) : List Path :=
  (entries.filter fun entry => counts disk (RawText.descend above entry.1) entry.2).map
    fun entry => Path.ofText (RawText.descend above entry.1)

/-- The files below a directory outside skipped directories, whether or not their texts are too
long for a walk to get there. -/
def filesBelow (disk : Disk) (skipped : List String) (above : String) (listing : Listing) :
    List Path :=
  listed disk above (listing.leaves skipped)

/-- Every directory that a walk enters has a text that can be opened. -/
def Openable (skipped : List String) (above : String) (listing : Listing) : Prop :=
  ∀ names ∈ listing.dirs skipped, (RawText.descend above names).utf8ByteSize < Disk.pathLimit

instance (skipped : List String) (above : String) (listing : Listing) :
    Decidable (Openable skipped above listing) :=
  inferInstanceAs (Decidable (∀ names ∈ listing.dirs skipped, _))

variable {disk : Disk} {skipped : List String} {above : String} {listing inside : Listing}
  {base : Path} {start : Start} {segments : List (List Char)}

theorem listed_append (left right : List (Location × Leaf)) :
    listed disk above (left ++ right) = listed disk above left ++ listed disk above right := by
  simp [listed]

theorem listed_descend (front : Location) (entries : List (Location × Leaf)) :
    listed disk above (entries.map fun entry => (front ++ entry.1, entry.2)) =
      listed disk (RawText.descend above front) entries := by
  simp only [listed, List.filter_map, List.map_map, Function.comp_def, RawText.descend_append]

theorem below_eq (short : Openable skipped above listing) :
    below disk skipped above listing = ⟨filesBelow disk skipped above listing, none⟩ := by
  induction listing generalizing above with
  | nil => rfl
  | leaf name held rest ih =>
      have later := ih short
      by_cases counted : counts disk (RawText.join above name) held
      · simp [below, counted, later, Found.cons, filesBelow, Listing.leaves, listed,
          RawText.descend]
      · simp [below, counted, later, filesBelow, Listing.leaves, listed, RawText.descend]
  | dir name inside rest ihInside ihRest =>
      by_cases passed : name ∈ skipped
      · have later : Openable skipped above rest := fun names member =>
          short names (by simpa [Listing.dirs, passed] using member)
        simp [below, passed, ihRest later, filesBelow, Listing.leaves]
      · have opened : (RawText.join above name).utf8ByteSize < Disk.pathLimit :=
          short [name] (by simp [Listing.dirs, passed])
        have deeper : Openable skipped (RawText.join above name) inside := fun names member =>
          short (name :: names) (by simp [Listing.dirs, passed, member])
        have later : Openable skipped above rest := fun names member =>
          short names (by simp [Listing.dirs, passed, member])
        have under : listed disk above
            ((inside.leaves skipped).map fun entry => (name :: entry.1, entry.2)) =
              filesBelow disk skipped (RawText.join above name) inside :=
          listed_descend [name] (inside.leaves skipped)
        rw [filesBelow, Listing.leaves, if_neg passed, listed_append, under]
        simp only [below, if_neg passed, enter, if_neg (Nat.not_le.mpr opened), ihInside deeper,
          ihRest later, Found.append]
        rfl

theorem below_failure (long : ¬Openable skipped above listing) :
    ∃ names ∈ listing.dirs skipped,
      Disk.pathLimit ≤ (RawText.descend above names).utf8ByteSize ∧
      (below disk skipped above listing).failure =
        some (.tree (RawText.descend above names) .nameTooLong) := by
  induction listing generalizing above with
  | nil => exact absurd (by simp [Openable, Listing.dirs]) long
  | leaf name held rest ih =>
      obtain ⟨names, member, size, failed⟩ := ih long
      refine ⟨names, member, size, ?_⟩
      simp only [below]
      split
      · exact failed
      · exact failed
  | dir name inside rest ihInside ihRest =>
      by_cases passed : name ∈ skipped
      · have later : ¬Openable skipped above rest := by
          simpa [Openable, Listing.dirs, passed] using long
        obtain ⟨names, member, size, failed⟩ := ihRest later
        exact ⟨names, by simpa [Listing.dirs, passed] using member, size,
          by simpa [below, passed] using failed⟩
      · -- The walk ends in this directory, in one below it, or in one behind it.
        by_cases opened : (RawText.join above name).utf8ByteSize < Disk.pathLimit
        · by_cases deeper : Openable skipped (RawText.join above name) inside
          · have later : ¬Openable skipped above rest := by
              intro short
              refine long fun names member => ?_
              simp only [Listing.dirs, if_neg passed, List.mem_append, List.mem_cons,
                List.mem_map] at member
              rcases member with (rfl | ⟨names, member, rfl⟩) | member
              · exact opened
              · exact deeper names member
              · exact short names member
            obtain ⟨names, member, size, failed⟩ := ihRest later
            refine ⟨names, by simp [Listing.dirs, passed, member], size, ?_⟩
            simp only [below, if_neg passed, enter, if_neg (Nat.not_le.mpr opened),
              below_eq deeper, Found.append, failed]
          · obtain ⟨names, member, size, failed⟩ := ihInside deeper
            refine ⟨name :: names, by simp [Listing.dirs, passed, member], size, ?_⟩
            simp only [below, if_neg passed, enter, if_neg (Nat.not_le.mpr opened), Found.append,
              failed]
            rfl
        · refine ⟨[name], by simp [Listing.dirs, passed], Nat.not_lt.mp opened, ?_⟩
          simp only [below, if_neg passed, enter, if_pos (Nat.not_lt.mp opened), Found.append,
            Found.failed]
          rfl

theorem run_of_dir (rooted : startsAtRoot base.text)
    (found : disk.node true base.text = .ok (.dir inside)) :
    run ⟨base, skipped⟩ disk = below disk skipped base.text inside := by
  obtain ⟨place, reached, held⟩ := Disk.node_ok rooted found
  obtain ⟨noNul, short, leads⟩ := Disk.reach_ok rooted reached
  obtain ⟨ending, halting, same | ⟨target, link⟩⟩ := leads.halting
  · subst same
    have unfollowed : disk.node false base.text = .ok (.dir inside) :=
      Disk.node_of_reach
        ((Disk.reach_of_startsAtRoot rooted noNul short false).trans halting.travel) held
    simp only [run, unfollowed]
  · have unfollowed : disk.node false base.text = .ok (.leaf (.link target)) :=
      Disk.node_of_reach
        ((Disk.reach_of_startsAtRoot rooted noNul short false).trans halting.travel) link
    simp only [run, unfollowed, found]

theorem files_eq (rooted : startsAtRoot base.text)
    (found : disk.node true base.text = .ok (.dir inside))
    (short : Openable skipped base.text inside) :
    files ⟨base, skipped⟩ disk = .ok (filesBelow disk skipped base.text inside) := by
  rw [files, run_of_dir rooted found, below_eq short]
  rfl

theorem files_error (rooted : startsAtRoot base.text)
    (found : disk.node true base.text = .ok (.dir inside))
    (long : ¬Openable skipped base.text inside) :
    ∃ names ∈ inside.dirs skipped,
      Disk.pathLimit ≤ (RawText.descend base.text names).utf8ByteSize ∧
      files ⟨base, skipped⟩ disk =
        .error (.tree (RawText.descend base.text names) .nameTooLong) := by
  obtain ⟨names, member, size, failed⟩ := @below_failure disk _ _ _ long
  refine ⟨names, member, size, ?_⟩
  rw [files, run_of_dir rooted found, Found.outcome, failed]

theorem openable_of_files {all : List Path} (rooted : startsAtRoot base.text)
    (found : disk.node true base.text = .ok (.dir inside))
    (walked : files ⟨base, skipped⟩ disk = .ok all) : Openable skipped base.text inside := by
  by_contra long
  obtain ⟨names, -, -, failed⟩ := @files_error disk _ _ _ rooted found long
  rw [failed] at walked
  contradiction

theorem files_ok {all : List Path} (rooted : startsAtRoot base.text)
    (found : disk.node true base.text = .ok (.dir inside))
    (walked : files ⟨base, skipped⟩ disk = .ok all) :
    all = filesBelow disk skipped base.text inside := by
  rw [files_eq rooted found (openable_of_files rooted found walked)] at walked
  cases walked
  rfl

theorem files_map_ok {α : Type} {change : List Path → α} {result : α}
    (rooted : startsAtRoot base.text) (found : disk.node true base.text = .ok (.dir inside))
    (succeeds : (files ⟨base, skipped⟩ disk).map change = .ok result) :
    result = change (filesBelow disk skipped base.text inside) := by
  cases walked : files ⟨base, skipped⟩ disk with
  | error failure => simp [walked, Except.map] at succeeds
  | ok all =>
      rw [walked] at succeeds
      cases succeeds
      rw [files_ok rooted found walked]

end ManifestSearch.Walk
