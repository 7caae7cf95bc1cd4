import ManifestSearch.Proofs.Tree.Writing
import ManifestSearch.Proofs.Walk.Outcome

/-!
Two walks of a place, with the tree grown in between. What the first walk lists the second lists too,
in the same order, so a choice from both gives the same files exactly if it takes nothing that is new:
neither a file that was made nor a link that leads to a file only since then.
-/

namespace ManifestSearch

open Listing (Grows)

variable {before after : Disk} {text above : String} {top place : Location} {inside grown : Listing}
  {skipped : List String} {chosen : Path → Bool} {names : Location} {held : Leaf}

theorem Listing.Grows.below {root later : Listing} (grows : Grows root later)
    (found : root.at? top = some (.dir inside)) (still : later.at? top = some (.dir grown)) :
    Grows inside grown := by
  constructor
  · intro location held stands
    have whole := grows.leaf (top ++ location) held ((at?_append found location).trans stands)
    exact (at?_append still location).symm.trans whole
  · intro location held stands
    obtain ⟨deeper, whole⟩ :=
      grows.dir (top ++ location) held ((at?_append found location).trans stands)
    exact ⟨deeper, (at?_append still location).symm.trans whole⟩

theorem Disk.isFile_grows (rooted : startsAtRoot text) (growth : Grows before.root after.root)
    (named : before.isFile text) : after.isFile text := by
  rw [isFile] at named
  split at named
  · rename_i content found
    obtain ⟨location, reached, stands⟩ := node_ok rooted found
    have still := node_of_reach (reach_grows rooted growth reached) (growth.leaf location _ stands)
    simp only [isFile, still]
  · contradiction

theorem RawText.startsAtRoot_descend (rooted : startsAtRoot above) (names : Location) :
    startsAtRoot (descend above names) := by
  induction names generalizing above with
  | nil => exact rooted
  | cons name names ih => exact ih (startsAtRoot_join rooted name)

namespace Walk

theorem counts_grows (rooted : startsAtRoot text) (growth : Grows before.root after.root)
    (counted : counts before text held) : counts after text held := by
  cases held with
  | file content => rfl
  | link target => exact Disk.isFile_grows rooted growth counted

/-- The entries that a walk lists and a choice takes. -/
def picked (disk : Disk) (chosen : Path → Bool) (skipped : List String) (above : String)
    (inside : Listing) : List (Location × Leaf) :=
  (inside.leaves skipped).filter fun entry =>
    counts disk (RawText.descend above entry.1) entry.2 &&
      chosen (Path.ofText (RawText.descend above entry.1))

theorem filter_filesBelow_eq (disk : Disk) :
    (filesBelow disk skipped above inside).filter chosen =
      (picked disk chosen skipped above inside).map fun entry =>
        Path.ofText (RawText.descend above entry.1) := by
  simp only [filesBelow, listed, picked, List.filter_map, List.filter_filter, Function.comp_def]
  congr 2
  funext entry
  exact Bool.and_comm _ _

theorem mem_picked {disk : Disk} (ordered : inside.Ordered) :
    (names, held) ∈ picked disk chosen skipped above inside ↔
      names ≠ [] ∧ inside.at? names = some (.leaf held) ∧ (∀ name ∈ names.dropLast, name ∉ skipped) ∧
        counts disk (RawText.descend above names) held ∧
        chosen (Path.ofText (RawText.descend above names)) := by
  simp only [picked, List.mem_filter, Listing.mem_leaves ordered, Bool.and_eq_true, and_assoc]

theorem picked_pairwise (disk : Disk) (ordered : inside.Ordered) :
    (picked disk chosen skipped above inside).Pairwise fun left right => left.1 < right.1 :=
  (Listing.leaves_pairwise ordered).filter _

theorem picked_sublist (rooted : startsAtRoot above) (growth : Grows before.root after.root)
    (grows : Grows inside grown) (ordered : inside.Ordered) (still : grown.Ordered) :
    (picked before chosen skipped above inside).Sublist
      (picked after chosen skipped above grown) := by
  have : Std.Antisymm fun first second : Location × Leaf => first.1 < second.1 :=
    ⟨fun first second less more => absurd more (List.lt_asymm less)⟩
  have first : (picked before chosen skipped above inside).Pairwise fun left right =>
      left.1 < right.1 := picked_pairwise before ordered
  have once : (picked before chosen skipped above inside).Nodup := by
    refine List.Pairwise.imp ?_ first
    rintro left right less rfl
    exact List.lt_irrefl left.1 less
  refine List.sublist_of_subperm_of_pairwise (List.subperm_of_subset once ?_) first
    (picked_pairwise after still)
  intro entry member
  obtain ⟨occupied, stands, outside, counted, wanted⟩ := (mem_picked ordered).mp member
  exact (mem_picked still).mpr ⟨occupied, grows.leaf _ _ stands, outside,
    counts_grows (RawText.startsAtRoot_descend rooted _) growth counted, wanted⟩

theorem picked_eq_iff (smaller : (picked before chosen skipped above inside).Sublist
      (picked after chosen skipped above grown))
    (ordered : inside.Ordered) (still : grown.Ordered) :
    picked before chosen skipped above inside = picked after chosen skipped above grown ↔
      picked after chosen skipped above grown ⊆ picked before chosen skipped above inside := by
  constructor
  · intro same
    rw [same]
    exact List.Subset.refl _
  · intro nothingNew
    exact Listing.eq_of_increasing (picked_pairwise before ordered) (picked_pairwise after still)
      fun entry => ⟨fun member => smaller.subset member, fun member => nothingNew member⟩

end Walk

end ManifestSearch
