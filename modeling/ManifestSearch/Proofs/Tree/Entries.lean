import ManifestSearch.Proofs.Tree.Growth

/-!
Trees place by place. What stands at a place is a leaf or a directory, apart from what the directory
holds (`entryAt?`), so that a node that holds nothing changes one entry where it is put. `AddsDirs` and
`Extends` compare two trees that differ by directories alone.
-/

namespace ManifestSearch

/-- What stands at a place. -/
inductive Entry where
  | dir
  | leaf (held : Leaf)
deriving DecidableEq

def Node.entry : Node → Entry
  | .dir _ => .dir
  | .leaf held => .leaf held

/-- A node that holds no others. -/
def Node.Bare (node : Node) : Prop := ∀ inside, node = .dir inside → inside = .nil

namespace Listing

def entryAt? (location : Location) (listing : Listing) : Option Entry :=
  (listing.at? location).map Node.entry

variable {listing inside before middle after : Listing} {location directory top : Location}
  {name : String} {node : Node}

theorem entryAt?_of_isDirAt (dir : Disk.isDirAt listing location) :
    listing.entryAt? location = some .dir := by
  obtain ⟨inside, found⟩ := Disk.isDirAt_iff.mp dir
  simp [entryAt?, found, Node.entry]

theorem entryAt?_eq_none : listing.entryAt? location = none ↔ listing.at? location = none := by
  simp [entryAt?]

theorem at?_nil (occupied : location ≠ []) : nil.at? location = none := by
  obtain ⟨name, rest, rfl⟩ := List.exists_cons_of_ne_nil occupied
  simp [at?, find?]

/-- Nothing is lost where no directory is replaced. -/
theorem entryAt?_put (noDir : ∀ inside, listing.find? name ≠ some (.dir inside)) (bare : node.Bare) :
    (listing.put name node).entryAt? location =
      if location = [name] then some node.entry else listing.entryAt? location := by
  cases location with
  | nil => rfl
  | cons first rest =>
      simp only [entryAt?, at?_cons, find?_put]
      by_cases here : first = name
      · subst here
        by_cases last : rest = []
        · subst last
          cases node with
          | leaf held => simp
          | dir inside => simp [at?, Node.entry]
        · have before : listing.at? (first :: rest) = none := by
            cases step : listing.find? first with
            | none => simp [at?_cons, step]
            | some next =>
                cases next with
                | leaf held => simp [at?_cons, step, last]
                | dir inside => exact absurd step (noDir inside)
          rw [at?_cons] at before
          rw [before]
          cases node with
          | leaf held => simp [last]
          | dir inside => simp [last, bare inside rfl, at?_nil last]
      · simp [here]

theorem entryAt?_change {edit : Listing → Listing} {added : Entry}
    (found : listing.at? directory = some (.dir inside))
    (edited : ∀ back, (edit inside).entryAt? back =
      if back = [name] then some added else inside.entryAt? back) :
    (listing.change edit directory).entryAt? location =
      if location = directory ++ [name] then some added else listing.entryAt? location := by
  induction directory generalizing listing location with
  | nil =>
      cases found
      exact edited location
  | cons first rest ih =>
      obtain ⟨below, step, onward⟩ := find?_of_at?_dir found
      simp only [change, step]
      cases location with
      | nil => rfl
      | cons other back =>
          simp only [entryAt?, at?_cons, find?_put]
          by_cases here : other = first
          · subst here
            have deeper : (below.change edit rest).entryAt? back =
                if back = rest ++ [name] then some added else below.entryAt? back := ih onward
            simp only [entryAt?] at deeper
            simpa [step] using deeper
          · simp [here]

/-- New entries are directories, and nothing else changes. -/
def AddsDirs (before after : Listing) : Prop :=
  ∀ location, after.entryAt? location = before.entryAt? location ∨
    before.entryAt? location = none ∧ after.entryAt? location = some .dir

theorem AddsDirs.refl (listing : Listing) : AddsDirs listing listing := fun _ => .inl rfl

theorem AddsDirs.trans (first : AddsDirs before middle) (second : AddsDirs middle after) :
    AddsDirs before after := by
  intro location
  rcases second location with same | ⟨free, dir⟩
  · rw [same]
    exact first location
  · rcases first location with same | ⟨-, found⟩
    · exact .inr ⟨same ▸ free, dir⟩
    · rw [free] at found
      contradiction

/-- The new entries are directories on the way to a place, and nothing else changes. -/
structure Extends (top : Location) (before after : Listing) : Prop where
  way : ∀ location, location <+: top →
    (before.entryAt? location = none ∨ before.entryAt? location = some .dir) ∧
      after.entryAt? location = some .dir
  rest : ∀ location, ¬location <+: top → after.entryAt? location = before.entryAt? location

theorem isDirAt_above (dir : Disk.isDirAt listing top) (above : location <+: top) :
    Disk.isDirAt listing location := by
  obtain ⟨back, rfl⟩ := above
  by_cases last : back = []
  · simpa [last] using dir
  · obtain ⟨inside, found⟩ := Disk.isDirAt_iff.mp dir
    exact Disk.isDirAt_iff.mpr (at?_front found last)

theorem Extends.refl (dir : Disk.isDirAt listing top) : Extends top listing listing := by
  refine ⟨fun location above => ?_, fun _ _ => rfl⟩
  have entry := entryAt?_of_isDirAt (isDirAt_above dir above)
  exact ⟨.inr entry, entry⟩

theorem beyond_concat (top : Location) (name : String) : ¬top ++ [name] <+: top := by
  intro within
  have size := within.length_le
  rw [List.length_append, List.length_singleton] at size
  omega

/-- What lies on the way to a place, but for the place itself. -/
theorem prefix_dropLast_iff (occupied : top ≠ []) :
    location <+: top.dropLast ↔ location <+: top ∧ location ≠ top := by
  obtain ⟨front, last, rfl⟩ : ∃ front last, top = front ++ [last] :=
    ⟨_, _, (List.dropLast_concat_getLast occupied).symm⟩
  rw [List.dropLast_concat, List.prefix_concat_iff]
  constructor
  · intro within
    exact ⟨.inr within, fun same => beyond_concat front last (same ▸ within)⟩
  · intro holds
    exact holds.1.resolve_left holds.2

/-- One directory more, below the last one that was made. -/
theorem Extends.step (extends_ : Extends top before middle)
    (free : middle.entryAt? (top ++ [name]) = none)
    (made : ∀ location, after.entryAt? location =
      if location = top ++ [name] then some .dir else middle.entryAt? location) :
    Extends (top ++ [name]) before after := by
  have beyond := beyond_concat top name
  constructor
  · intro location above
    rcases List.prefix_concat_iff.mp above with rfl | above
    · exact ⟨.inl ((extends_.rest _ beyond).symm.trans free), by simp [made]⟩
    · have other : location ≠ top ++ [name] := fun same => beyond (same ▸ above)
      rw [made, if_neg other]
      exact extends_.way location above
  · intro location outside
    rw [List.prefix_concat_iff, not_or] at outside
    rw [made, if_neg outside.1]
    exact extends_.rest location outside.2

theorem isDirAt_of_entryAt? (entry : listing.entryAt? location = some .dir) :
    Disk.isDirAt listing location := by
  cases found : listing.at? location with
  | none => simp [entryAt?, found] at entry
  | some node =>
      cases node with
      | dir inside => exact Disk.isDirAt_iff.mpr ⟨inside, found⟩
      | leaf held => simp [entryAt?, found, Node.entry] at entry

theorem isDirAt_iff_entryAt? : Disk.isDirAt listing location ↔ listing.entryAt? location = some .dir :=
  ⟨entryAt?_of_isDirAt, isDirAt_of_entryAt?⟩

end Listing

end ManifestSearch
