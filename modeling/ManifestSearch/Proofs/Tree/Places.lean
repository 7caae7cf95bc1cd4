import ManifestSearch.Proofs.Path.Parts

/-!
Places in a tree. A tree of a file system holds only names that an entry can have and holds them in
order (`Disk.Sound`), and what holds of a tree holds of the directories in it. A place is reached
through directories, so a place below another is one below it in the directory found there.
-/

namespace ManifestSearch

structure IsEntryName (name : String) : Prop where
  segment : Path.IsSegment name.toList
  noNul : '\x00' ∉ name.toList
  fits : name.utf8ByteSize ≤ Disk.nameLimit

instance (name : String) : Decidable (IsEntryName name) :=
  decidable_of_iff (Path.IsSegment name.toList ∧ '\x00' ∉ name.toList ∧
      name.utf8ByteSize ≤ Disk.nameLimit)
    ⟨fun ⟨segment, noNul, fits⟩ => ⟨segment, noNul, fits⟩,
      fun valid => ⟨valid.segment, valid.noNul, valid.fits⟩⟩

/-- A name without a backslash, which a path spells as it is. -/
def IsTame (name : String) : Prop := '\\' ∉ name.toList

instance (name : String) : Decidable (IsTame name) := inferInstanceAs (Decidable (¬_))

namespace Listing

def EveryName (condition : String → Prop) : Listing → Prop
  | nil => True
  | leaf name _ rest => condition name ∧ rest.EveryName condition
  | dir name inside rest =>
      condition name ∧ inside.EveryName condition ∧ rest.EveryName condition

instance decidableEveryName (condition : String → Prop) [DecidablePred condition] :
    (listing : Listing) → Decidable (listing.EveryName condition)
  | nil => .isTrue trivial
  | leaf _ _ rest =>
      have := decidableEveryName condition rest
      inferInstanceAs (Decidable (_ ∧ _))
  | dir _ inside rest =>
      have := decidableEveryName condition inside
      have := decidableEveryName condition rest
      inferInstanceAs (Decidable (_ ∧ _ ∧ _))

instance decidableOrdered : (listing : Listing) → Decidable listing.Ordered
  | nil => .isTrue trivial
  | leaf _ _ rest =>
      have := decidableOrdered rest
      inferInstanceAs (Decidable (_ ∧ _))
  | dir _ inside rest =>
      have := decidableOrdered inside
      have := decidableOrdered rest
      inferInstanceAs (Decidable (_ ∧ _ ∧ _))

variable {condition : String → Prop} {listing inside : Listing} {name : String} {node : Node}
  {location front back : Location}

theorem EveryName.find? (every : listing.EveryName condition)
    (found : listing.find? name = some node) :
    condition name ∧ ∀ inside, node = .dir inside → inside.EveryName condition := by
  induction listing with
  | nil => simp [Listing.find?] at found
  | leaf other held rest ih =>
      by_cases same : name = other
      · simp only [Listing.find?, if_pos same, Option.some.injEq] at found
        subst same found
        exact ⟨every.1, by simp⟩
      · simp only [Listing.find?, if_neg same] at found
        exact ih every.2 found
  | dir other below rest _ ih =>
      by_cases same : name = other
      · simp only [Listing.find?, if_pos same, Option.some.injEq] at found
        subst same found
        exact ⟨every.1, fun inside equal => by cases equal; exact every.2.1⟩
      · simp only [Listing.find?, if_neg same] at found
        exact ih every.2.2 found

theorem Ordered.find? (ordered : listing.Ordered) (found : listing.find? name = some (.dir inside)) :
    inside.Ordered := by
  induction listing with
  | nil => simp [Listing.find?] at found
  | leaf other held rest ih =>
      by_cases same : name = other
      · simp [Listing.find?, if_pos same] at found
      · simp only [Listing.find?, if_neg same] at found
        exact ih ordered.2 found
  | dir other below rest _ ih =>
      by_cases same : name = other
      · simp only [Listing.find?, if_pos same, Option.some.injEq, Node.dir.injEq] at found
        subst found
        exact ordered.2.1
      · simp only [Listing.find?, if_neg same] at found
        exact ih ordered.2.2 found

theorem mem_names_of_find? (found : listing.find? name = some node) : name ∈ listing.names := by
  induction listing with
  | nil => simp [Listing.find?] at found
  | leaf other held rest ih =>
      by_cases same : name = other
      · simp [names, same]
      · simp only [Listing.find?, if_neg same] at found
        exact List.mem_cons_of_mem other (ih found)
  | dir other below rest _ ih =>
      by_cases same : name = other
      · simp [names, same]
      · simp only [Listing.find?, if_neg same] at found
        exact List.mem_cons_of_mem other (ih found)

theorem at?_cons (name : String) (back : Location) (listing : Listing) :
    listing.at? (name :: back) =
      (listing.find? name).bind fun node =>
        match node with
        | .dir inside => inside.at? back
        | .leaf held => if back = [] then some (.leaf held) else none := by
  simp only [at?]
  cases listing.find? name with
  | none => rfl
  | some node => cases node <;> rfl

/-- The first step to a directory leads to a directory. -/
theorem find?_of_at?_dir (found : listing.at? (name :: back) = some (.dir inside)) :
    ∃ below, listing.find? name = some (.dir below) ∧ below.at? back = some (.dir inside) := by
  rw [at?_cons] at found
  cases first : listing.find? name with
  | none => simp [first] at found
  | some node =>
      cases node with
      | leaf held => simp [first] at found
      | dir below => exact ⟨below, rfl, by simpa only [first, Option.bind_some] using found⟩

theorem ne_nil_of_at?_leaf {held : Leaf} (stands : listing.at? location = some (.leaf held)) :
    location ≠ [] := by
  intro empty
  simp [empty, at?] at stands

theorem at?_append (found : listing.at? front = some (.dir inside)) (back : Location) :
    listing.at? (front ++ back) = inside.at? back := by
  induction front generalizing listing with
  | nil => cases found; rfl
  | cons name front ih =>
      obtain ⟨below, step, deeper⟩ := find?_of_at?_dir found
      rw [List.cons_append, at?_cons, step]
      exact ih deeper

theorem at?_front (found : listing.at? (front ++ back) = some node) (further : back ≠ []) :
    ∃ inside, listing.at? front = some (.dir inside) := by
  induction front generalizing listing with
  | nil => exact ⟨listing, rfl⟩
  | cons name front ih =>
      rw [List.cons_append, at?_cons] at found
      rw [at?_cons]
      cases first : listing.find? name with
      | none => simp [first] at found
      | some node =>
          cases node with
          | leaf held => simp [first, further] at found
          | dir below =>
              simp only [first, Option.bind_some] at found ⊢
              exact ih found

theorem at?_singleton (listing : Listing) (name : String) :
    listing.at? [name] = listing.find? name := by
  rw [at?_cons]
  cases listing.find? name with
  | none => rfl
  | some node => cases node <;> rfl

theorem EveryName.at? (every : listing.EveryName condition)
    (found : listing.at? location = some node) :
    (∀ name ∈ location, condition name) ∧
      ∀ inside, node = .dir inside → inside.EveryName condition := by
  induction location generalizing listing with
  | nil =>
      simp only [Listing.at?, Option.some.injEq] at found
      subst found
      exact ⟨by simp, fun inside equal => by cases equal; exact every⟩
  | cons name location ih =>
      rw [at?_cons] at found
      cases first : listing.find? name with
      | none => simp [first] at found
      | some step =>
          obtain ⟨holds, deeper⟩ := every.find? first
          cases step with
          | leaf held =>
              simp only [first, Option.bind_some, Option.ite_none_right_eq_some,
                Option.some.injEq] at found
              obtain ⟨rfl, rfl⟩ := found
              exact ⟨by simpa using holds, by simp⟩
          | dir below =>
              simp only [first, Option.bind_some] at found
              obtain ⟨names, nested⟩ := ih (deeper below rfl) found
              refine ⟨?_, nested⟩
              intro other member
              rcases List.mem_cons.mp member with rfl | member
              · exact holds
              · exact names other member

theorem Ordered.at? (ordered : listing.Ordered)
    (found : listing.at? location = some (.dir inside)) : inside.Ordered := by
  induction location generalizing listing with
  | nil => cases found; exact ordered
  | cons name location ih =>
      obtain ⟨below, step, deeper⟩ := find?_of_at?_dir found
      exact ih (ordered.find? step) deeper

end Listing

/-- A tree as a file system holds it. -/
structure Disk.Sound (disk : Disk) : Prop where
  ordered : disk.root.Ordered
  named : disk.root.EveryName IsEntryName

instance (disk : Disk) : Decidable disk.Sound :=
  decidable_of_iff (disk.root.Ordered ∧ disk.root.EveryName IsEntryName)
    ⟨fun ⟨ordered, named⟩ => ⟨ordered, named⟩, fun sound => ⟨sound.ordered, sound.named⟩⟩

end ManifestSearch
