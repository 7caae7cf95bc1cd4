import ManifestSearch.Proofs.Walk.Site

/-!
Trees that are too deep for a walk. Directories may lie one in another until their texts are longer
than any that can be opened, and a walk that comes upon such a directory fails.
-/

namespace ManifestSearch

variable {name : String} {inside : Listing} {condition : String → Prop} {depth : Nat}

namespace Listing

/-- Directories of one name, each in the one before, with some entries in the last. -/
def nested (name : String) (inside : Listing) : Nat → Listing
  | 0 => inside
  | depth + 1 => .dir name (nested name inside depth) .nil

theorem Ordered.nested (ordered : inside.Ordered) (depth : Nat) :
    (nested name inside depth).Ordered := by
  induction depth with
  | zero => exact ordered
  | succ depth ih => exact ⟨by simp [names], ih, trivial⟩

theorem EveryName.nested (every : inside.EveryName condition) (holds : condition name) (depth : Nat) :
    (nested name inside depth).EveryName condition := by
  induction depth with
  | zero => exact every
  | succ depth ih => exact ⟨holds, ih, trivial⟩

theorem leaves_nested {skipped : List String} (none : inside.leaves skipped = []) (depth : Nat) :
    (nested name inside depth).leaves skipped = [] := by
  induction depth with
  | zero => exact none
  | succ depth ih => simp [Listing.nested, leaves, ih]

theorem replicate_mem_dirs {skipped : List String} (entered : name ∉ skipped) (rest : Listing)
    (depth : Nat) :
    List.replicate (depth + 1) name ∈ (dir name (nested name inside depth) rest).dirs skipped := by
  induction depth generalizing rest with
  | zero => simp [dirs, entered]
  | succ depth ih =>
      rw [dirs, if_neg entered]
      simp only [List.cons_append, List.mem_cons, List.mem_append, List.mem_map]
      exact .inr (.inl ⟨_, ih .nil, rfl⟩)

end Listing

theorem Walk.not_openable_nested {skipped : List String} {above : String} (occupied : above ≠ "")
    (plain : Path.IsSegment name.toList) (entered : name ∉ skipped) (rest : Listing)
    (deep : Disk.pathLimit ≤ depth) :
    ¬Openable skipped above (.dir name (Listing.nested name inside depth) rest) := by
  intro short
  have bound := short _ (Listing.replicate_mem_dirs entered rest depth)
  have plainAll : ∀ other ∈ List.replicate (depth + 1) name, Path.IsSegment other.toList :=
    fun other member => by rwa [List.eq_of_mem_replicate member]
  have size := RawText.le_size_descend occupied plainAll
  rw [List.length_replicate] at size
  omega

/-- Directories that lie one in another below a directory `d`, next to a manifest. -/
def deepListing : Listing :=
  .dir "d" (Listing.nested "d" .nil Disk.pathLimit) (.leaf "tsconfig.json" (.file "") .nil)

def deepDisk : Disk := ⟨.dir "w" deepListing .nil, [], false⟩

namespace Walk

theorem site_deepDisk : Site deepDisk ⟨"/w"⟩ deepListing := by
  have none : Listing.nil.Ordered := trivial
  have every : Listing.nil.EveryName IsEntryName := trivial
  refine ⟨⟨⟨by simp [Listing.names], ⟨?_, none.nested _, by simp [Listing.names], none⟩, none⟩, ?_⟩,
    by decide, rfl⟩
  · simp only [Listing.names, List.mem_singleton, forall_eq]
    decide
  · exact ⟨by decide, ⟨by decide, every.nested (by decide) _, by decide, every⟩, every⟩

theorem tame_deepListing : deepListing.EveryName IsTame := by
  have every : Listing.nil.EveryName IsTame := trivial
  exact ⟨by decide, every.nested (by decide) _, by decide, every⟩

theorem leaves_deepListing (skipped : List String) :
    deepListing.leaves skipped = [(["tsconfig.json"], .file "")] := by
  have none : Listing.nil.leaves skipped = [] := rfl
  simp [deepListing, Listing.leaves, Listing.leaves_nested none]

theorem noDirLinks_deepDisk : deepDisk.NoDirLinks "/w" deepListing := by
  refine site_deepDisk.noDirLinks fun entry member => ?_
  rw [leaves_deepListing, List.mem_singleton] at member
  subst member
  decide

theorem not_openable_deepListing {skipped : List String} (entered : "d" ∉ skipped) :
    ¬Openable skipped "/w" deepListing :=
  not_openable_nested (by decide) (by decide) entered _ (Nat.le_refl _)

end Walk

end ManifestSearch
