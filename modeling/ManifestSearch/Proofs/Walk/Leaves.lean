import Mathlib.Data.List.Sort
import ManifestSearch.Proofs.Tree.Places

/-!
The leaves of a tree in the order of a walk: the list that a walk goes through, apart from texts
and from what can fail. A leaf is listed exactly if it stands at a place in the tree that is reached
through directories that are not skipped (`mem_leaves`), the places increase, and the leaves below a
directory are a stretch of all leaves.
-/

namespace ManifestSearch.Listing

/-- The files and links with the names on the way to each; directories with a skipped name are
passed by. -/
def leaves (skipped : List String) : Listing → List (Location × Leaf)
  | nil => []
  | leaf name held rest => ([name], held) :: rest.leaves skipped
  | dir name inside rest =>
      if name ∈ skipped then rest.leaves skipped
      else (inside.leaves skipped).map (fun entry => (name :: entry.1, entry.2)) ++
        rest.leaves skipped

/-- The directories that are entered, with the names on the way to each. -/
def dirs (skipped : List String) : Listing → List Location
  | nil => []
  | leaf _ _ rest => rest.dirs skipped
  | dir name inside rest =>
      if name ∈ skipped then rest.dirs skipped
      else [name] :: (inside.dirs skipped).map (name :: ·) ++ rest.dirs skipped

variable {skipped : List String} {listing inside : Listing} {name other : String}
  {names front back : Location} {held : Leaf} {entry : Location × Leaf}

theorem head_mem_names_of_mem_leaves (member : entry ∈ listing.leaves skipped) :
    ∃ name back, entry.1 = name :: back ∧ name ∈ listing.names := by
  induction listing generalizing entry with
  | nil => simp [leaves] at member
  | leaf name held rest ih =>
      rcases List.mem_cons.mp member with rfl | member
      · exact ⟨name, [], rfl, by simp [names]⟩
      · obtain ⟨other, back, whole, inRest⟩ := ih member
        exact ⟨other, back, whole, List.mem_cons_of_mem name inRest⟩
  | dir name inside rest _ ih =>
      have later : entry ∈ rest.leaves skipped →
          ∃ other back, entry.1 = other :: back ∧ other ∈ (dir name inside rest).names := by
        intro member
        obtain ⟨other, back, whole, inRest⟩ := ih member
        exact ⟨other, back, whole, List.mem_cons_of_mem name inRest⟩
      simp only [leaves] at member
      split at member
      · exact later member
      · rcases List.mem_append.mp member with member | member
        · obtain ⟨deeper, -, rfl⟩ := List.mem_map.mp member
          exact ⟨name, deeper.1, rfl, by simp [names]⟩
        · exact later member

theorem ne_nil_of_mem_leaves (member : entry ∈ listing.leaves skipped) : entry.1 ≠ [] := by
  obtain ⟨name, back, whole, -⟩ := head_mem_names_of_mem_leaves member
  simp [whole]

theorem not_mem_leaves_of_before (before : ∀ later ∈ listing.names, name < later) :
    (name :: back, held) ∉ listing.leaves skipped := by
  intro member
  obtain ⟨head, rest, whole, inNames⟩ := head_mem_names_of_mem_leaves member
  cases whole
  exact String.lt_irrefl name (before name inNames)

theorem find?_of_before (before : ∀ later ∈ listing.names, name < later) :
    listing.find? name = none := by
  cases found : listing.find? name with
  | none => rfl
  | some node => exact absurd (before name (mem_names_of_find? found)) (String.lt_irrefl name)

theorem mem_leaves_cons (ordered : listing.Ordered) :
    (name :: back, held) ∈ listing.leaves skipped ↔
      (listing.find? name = some (.leaf held) ∧ back = []) ∨
        ∃ inside, listing.find? name = some (.dir inside) ∧ name ∉ skipped ∧
          (back, held) ∈ inside.leaves skipped := by
  induction listing with
  | nil => simp [leaves, find?]
  | leaf first leaf rest ih =>
      by_cases same : name = first
      · subst same
        simp [leaves, find?, not_mem_leaves_of_before ordered.1, and_comm, eq_comm]
      · simp [leaves, find?, same, ih ordered.2]
  | dir first below rest _ ih =>
      by_cases same : name = first
      · subst same
        by_cases passed : name ∈ skipped
        · simp [leaves, find?, passed, not_mem_leaves_of_before ordered.1]
        · simp [leaves, find?, passed, not_mem_leaves_of_before ordered.1]
      · by_cases passed : first ∈ skipped
        · simp [leaves, find?, passed, same, ih ordered.2.2]
        · simp [leaves, find?, passed, same, Ne.symm same, ih ordered.2.2]

theorem mem_leaves (ordered : listing.Ordered) :
    (names, held) ∈ listing.leaves skipped ↔
      names ≠ [] ∧ listing.at? names = some (.leaf held) ∧ ∀ name ∈ names.dropLast, name ∉ skipped := by
  induction names generalizing listing with
  | nil =>
      constructor
      · exact fun member => absurd rfl (ne_nil_of_mem_leaves member)
      · exact fun ⟨occupied, _⟩ => absurd rfl occupied
  | cons name back ih =>
      rw [mem_leaves_cons ordered, at?_cons]
      cases found : listing.find? name with
      | none => simp
      | some node =>
          cases node with
          | leaf leaf =>
              by_cases last : back = []
              · simp [last]
              · simp [last]
          | dir inside =>
              have deeper := ih (ordered.find? found)
              by_cases last : back = []
              · subst last
                simp only [ne_eq, not_true_eq_false, false_and, iff_false] at deeper
                simp [deeper, at?]
              · simp only [ne_eq, last, not_false_eq_true, true_and] at deeper
                simp [deeper, List.dropLast_cons_of_ne_nil last, and_left_comm]

theorem mem_dirs_cons (ordered : listing.Ordered) :
    name :: back ∈ listing.dirs skipped ↔
      ∃ inside, listing.find? name = some (.dir inside) ∧ name ∉ skipped ∧
        (back = [] ∨ back ∈ inside.dirs skipped) := by
  have later (rest : Listing) (before : ∀ later ∈ rest.names, name < later)
      (ih : name :: back ∈ rest.dirs skipped ↔ ∃ inside, rest.find? name = some (.dir inside) ∧
        name ∉ skipped ∧ (back = [] ∨ back ∈ inside.dirs skipped)) :
      name :: back ∉ rest.dirs skipped := by
    rw [ih, find?_of_before before]
    simp
  induction listing with
  | nil => simp [dirs, find?]
  | leaf first leaf rest ih =>
      by_cases same : name = first
      · subst same
        simp [dirs, find?, later rest ordered.1 (ih ordered.2)]
      · simp [dirs, find?, same, ih ordered.2]
  | dir first below rest _ ih =>
      by_cases same : name = first
      · subst same
        by_cases passed : name ∈ skipped
        · simp [dirs, find?, passed, later rest ordered.1 (ih ordered.2.2)]
        · simp [dirs, find?, passed, later rest ordered.1 (ih ordered.2.2)]
      · by_cases passed : first ∈ skipped
        · simp [dirs, find?, passed, same, ih ordered.2.2]
        · simp [dirs, find?, passed, same, Ne.symm same, ih ordered.2.2]

theorem ne_nil_of_mem_dirs (member : names ∈ listing.dirs skipped) : names ≠ [] := by
  induction listing with
  | nil => simp [dirs] at member
  | leaf name held rest ih => exact ih member
  | dir name inside rest _ ih =>
      simp only [dirs] at member
      split at member
      · exact ih member
      · rcases List.mem_append.mp member with member | member
        · rcases List.mem_cons.mp member with rfl | member
          · simp
          · obtain ⟨deeper, -, rfl⟩ := List.mem_map.mp member
            simp
        · exact ih member

theorem mem_dirs (ordered : listing.Ordered) :
    names ∈ listing.dirs skipped ↔
      names ≠ [] ∧ (∃ inside, listing.at? names = some (.dir inside)) ∧
        ∀ name ∈ names, name ∉ skipped := by
  induction names generalizing listing with
  | nil =>
      constructor
      · exact fun member => absurd rfl (ne_nil_of_mem_dirs member)
      · exact fun ⟨occupied, _⟩ => absurd rfl occupied
  | cons name back ih =>
      rw [mem_dirs_cons ordered, at?_cons]
      cases found : listing.find? name with
      | none => simp
      | some node =>
          cases node with
          | leaf leaf => simp
          | dir inside =>
              have deeper := ih (ordered.find? found)
              by_cases last : back = []
              · subst last
                simp [at?]
              · simp only [ne_eq, last, not_false_eq_true, true_and] at deeper
                simp [deeper, last, and_left_comm]

/-- Skipping directories leaves out the leaves below them and no others. -/
theorem leaves_eq_filter (skipped : List String) (listing : Listing) :
    listing.leaves skipped =
      (listing.leaves []).filter fun entry => entry.1.dropLast.all fun name => name ∉ skipped := by
  induction listing with
  | nil => rfl
  | leaf name held rest ih => simp [leaves, ih]
  | dir name inside rest ihInside ihRest =>
      have first (entry : Location × Leaf) (member : entry ∈ inside.leaves []) :
          (name :: entry.1).dropLast = name :: entry.1.dropLast :=
        List.dropLast_cons_of_ne_nil (ne_nil_of_mem_leaves member)
      simp only [leaves, List.not_mem_nil, if_false, List.filter_append, ← ihRest, List.filter_map]
      by_cases passed : name ∈ skipped
      · rw [if_pos passed]
        have none : (inside.leaves []).filter ((fun entry : Location × Leaf =>
            entry.1.dropLast.all fun name => name ∉ skipped) ∘
              fun entry => (name :: entry.1, entry.2)) = [] := by
          refine List.filter_eq_nil_iff.mpr fun entry member => ?_
          simp [first entry member, passed]
        rw [none]
        rfl
      · rw [if_neg passed, ihInside]
        congr 2
        refine List.filter_congr fun entry member => ?_
        simp [first entry member, passed]

theorem leaves_pairwise (ordered : listing.Ordered) :
    (listing.leaves skipped).Pairwise fun left right => left.1 < right.1 := by
  induction listing with
  | nil => exact .nil
  | leaf name held rest ih =>
      refine .cons ?_ (ih ordered.2)
      intro entry member
      obtain ⟨other, back, whole, inRest⟩ := head_mem_names_of_mem_leaves member
      rw [whole]
      exact List.cons_lt_cons_iff.mpr (.inl (ordered.1 other inRest))
  | dir name inside rest ihInside ihRest =>
      simp only [leaves]
      split
      · exact ihRest ordered.2.2
      · refine List.pairwise_append.mpr ⟨?_, ihRest ordered.2.2, ?_⟩
        · refine List.Pairwise.map _ ?_ (ihInside ordered.2.1)
          exact fun left right less => List.cons_lt_cons_iff.mpr (.inr ⟨rfl, less⟩)
        · intro left leftMember right rightMember
          obtain ⟨entry, -, rfl⟩ := List.mem_map.mp leftMember
          obtain ⟨other, back, whole, inRest⟩ := head_mem_names_of_mem_leaves rightMember
          rw [whole]
          exact List.cons_lt_cons_iff.mpr (.inl (ordered.1 other inRest))

theorem eq_of_increasing {left right : List (Location × Leaf)}
    (leftOrder : left.Pairwise fun first second => first.1 < second.1)
    (rightOrder : right.Pairwise fun first second => first.1 < second.1)
    (same : ∀ entry, entry ∈ left ↔ entry ∈ right) : left = right := by
  have : Std.Irrefl fun first second : Location × Leaf => first.1 < second.1 :=
    ⟨fun entry => List.lt_irrefl entry.1⟩
  have : Std.Antisymm fun first second : Location × Leaf => first.1 < second.1 :=
    ⟨fun first second less more => absurd more (List.lt_asymm less)⟩
  exact leftOrder.eq_of_mem_iff rightOrder same

theorem append_lt_append {before after : Location} (less : before < after) (front : Location) :
    front ++ before < front ++ after := by
  induction front with
  | nil => exact less
  | cons name front ih => exact List.cons_lt_cons_iff.mpr (.inr ⟨rfl, ih⟩)

theorem leaves_below (ordered : listing.Ordered) (found : listing.at? front = some (.dir inside)) :
    (listing.leaves []).filter (fun entry => front <+: entry.1) =
      (inside.leaves []).map fun entry => (front ++ entry.1, entry.2) := by
  refine eq_of_increasing ((leaves_pairwise ordered).filter _) ?_ ?_
  · refine List.Pairwise.map _ ?_ (leaves_pairwise (ordered.at? found))
    exact fun left right less => append_lt_append less front
  · intro holds
    obtain ⟨names, held⟩ := holds
    simp only [List.mem_filter, decide_eq_true_eq, List.mem_map, Prod.exists, Prod.mk.injEq,
      mem_leaves ordered, mem_leaves (ordered.at? found), List.not_mem_nil, not_false_eq_true,
      implies_true, and_true]
    constructor
    · intro holds
      obtain ⟨⟨-, stands⟩, back, rfl⟩ := holds
      rw [at?_append found] at stands
      exact ⟨back, held, ⟨ne_nil_of_at?_leaf stands, stands⟩, rfl, rfl⟩
    · intro holds
      obtain ⟨back, leaf, ⟨occupied, stands⟩, rfl, rfl⟩ := holds
      refine ⟨⟨by simp [occupied], (at?_append found back).trans stands⟩, back, rfl⟩

end ManifestSearch.Listing
