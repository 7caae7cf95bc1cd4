import ManifestSearch.Proofs.Tree.Making
import ManifestSearch.Proofs.Tree.Unlinked

/-!
Places in a tree without links. A text in the one spelling of its path leads to the place with the
names of its segments, whether something stands there or the name is free.
-/

namespace ManifestSearch

open ManifestSearch.Path (Spelled Start)

/-- At no place there is a link. -/
def Listing.Linkless (root : Listing) : Prop :=
  ∀ location target, root.at? location ≠ some (.leaf (.link target))

theorem Listing.Unlinked.linkless {root : Listing} (unlinked : root.Unlinked) : root.Linkless :=
  fun _ target => unlinked.at? target

/-- The place that a spot is about, whether or not something stands there. -/
def Spot.place? : Spot → Option Location
  | .taken location => some location
  | .free directory name => some (directory ++ [name])
  | .adrift => none

namespace Disk

variable {disk : Disk} {path : Path} {start : Start} {segments : List (List Char)} {root : Listing}
  {throughLast : Bool} {links : Nat} {place names : Location} {spot : Spot}

theorem Leads.place_of_names (linkless : root.Linkless)
    (leads : Leads root throughLast links place (names.map .into) spot) :
    spot.place? = some (place ++ names) := by
  induction names generalizing place with
  | nil =>
      cases leads with
      | arrive => rw [Spot.place?, List.append_nil]
  | cons name names ih =>
      rw [List.map_cons] at leads
      generalize rest : names.map Step.into = steps at leads
      cases leads with
      | free fits held =>
          rw [List.map_eq_nil_iff.mp rest]
          rfl
      | file fits held =>
          rw [List.map_eq_nil_iff.mp rest]
          rfl
      | halt fits held last => exact absurd held (linkless _ _)
      | enter fits held onward =>
          subst rest
          rw [ih onward, List.append_assoc, List.singleton_append]
      | follow fits held inner onward => exact absurd held (linkless _ _)

/-- The names on the way to a place are the segments of any path that leads there. -/
theorem place_of_spelled (linkless : disk.root.Linkless) (spelling : path.Spelled start segments)
    (reached : disk.reach throughLast path.text = .ok spot) :
    ∃ location, spot.place? = some location ∧ segmentsOf location = segments := by
  obtain ⟨-, -, leads⟩ := reach_ok spelling.startsAtRoot reached
  rw [Step.all_of_spelled spelling, Step.ofSegments, ← Function.comp_def, ← List.map_map] at leads
  refine ⟨_, leads.place_of_names linkless, ?_⟩
  simp [segmentsOf, Function.comp_def]

end Disk

end ManifestSearch
