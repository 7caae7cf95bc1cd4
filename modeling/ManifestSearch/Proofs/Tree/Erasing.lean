import ManifestSearch.Proofs.Tree.Writing

/-!
Taking back what was made. What was put under a free name is erased again by that name, so a file that
is made and then removed leaves every place of the tree as it was.
-/

namespace ManifestSearch

variable {name other : String} {first second node next : Node} {listing inside rest : Listing}
  {location directory : Location} {edit : Listing → Listing}

namespace Listing

theorem put_put (listing : Listing) :
    (listing.put name first).put name second = listing.put name second := by
  induction listing using cons_induction with
  | nil =>
      have single : (nil.put name first) = cons name first nil := rfl
      rw [single, put_cons, if_neg (Std.lt_irrefl), if_pos rfl]
      rfl
  | cons other next rest ih =>
      rw [put_cons, put_cons]
      split
      · rw [put_cons, if_neg (Std.lt_irrefl), if_pos rfl]
      · rename_i notLess
        split
        · rw [put_cons, if_neg (Std.lt_irrefl), if_pos rfl]
        · rename_i different
          rw [put_cons, if_neg notLess, if_neg different, ih]

theorem erase_cons (name other : String) (next : Node) (rest : Listing) :
    (cons other next rest).erase name =
      if name = other then rest else cons other next (rest.erase name) := by
  cases next with
  | leaf held => rfl
  | dir inside => rfl

theorem erase_put (free : listing.find? name = none) :
    (listing.put name node).erase name = listing := by
  induction listing using cons_induction with
  | nil =>
      have single : (nil.put name node) = cons name node nil := rfl
      rw [single, erase_cons, if_pos rfl]
  | cons other next rest ih =>
      rw [find?_cons] at free
      split at free
      · contradiction
      · rename_i different
        rw [put_cons]
        split
        · rw [erase_cons, if_pos rfl]
        · rw [erase_cons, if_neg different, ih free]

theorem change_change (again : Listing → Listing) :
    (listing.change edit location).change again location =
      listing.change (fun inside => again (edit inside)) location := by
  induction location generalizing listing with
  | nil => rfl
  | cons name location ih =>
      cases step : listing.find? name with
      | none => simp [change, step]
      | some next =>
          cases next with
          | leaf held => simp [change, step]
          | dir below => simp [change, step, find?_put, ih, put_put]

/-- An edit that leaves a directory as it is changes no entry. -/
theorem entryAt?_change_of_same (found : listing.at? directory = some (.dir inside))
    (same : edit inside = inside) (location : Location) :
    (listing.change edit directory).entryAt? location = listing.entryAt? location := by
  induction directory generalizing listing location with
  | nil =>
      cases found
      rw [change, same]
  | cons name directory ih =>
      obtain ⟨below, step, onward⟩ := find?_of_at?_dir found
      simp only [change, step]
      cases location with
      | nil => rfl
      | cons other back =>
          have deeper := ih onward back
          simp only [entryAt?] at deeper ⊢
          rw [at?_cons, at?_cons, find?_put]
          by_cases here : other = name
          · subst here
            simpa [step] using deeper
          · rw [if_neg here]

end Listing

namespace Disk

variable {disk after : Disk} {text content : String}

/-- Once what a text made is there, the text leads to it, also where a link at the end would stop it. -/
theorem create_halting (rooted : startsAtRoot text) (made : disk.create text content = .ok after) :
    ∃ directory name, after = disk.putAt directory name (.leaf (.file content)) ∧
      after.reach false text = .ok (.taken (directory ++ [name])) ∧
      isDirAt disk.root directory ∧ disk.root.at? (directory ++ [name]) = none := by
  obtain ⟨directory, name, whole, gains⟩ := create_gains rooted made
  obtain ⟨noNul, short, leads⟩ := reach_ok rooted gains.free
  have growth := create_grows made
  have halting := leads.taken_of_free id growth gains.placed (by simp)
  refine ⟨directory, name, whole, ?_, gains.inDir, gains.missing⟩
  exact (reach_of_startsAtRoot rooted noNul short false).trans halting.travel

/-- A file that is made and then removed leaves every place as it was. -/
theorem entryAt?_remove_of_create (rooted : startsAtRoot text)
    (made : disk.create text content = .ok after) (location : Location) :
    (after.remove text).root.entryAt? location = disk.root.entryAt? location := by
  obtain ⟨directory, name, rfl, halting, inDir, missing⟩ := create_halting rooted made
  obtain ⟨inside, found⟩ := isDirAt_iff.mp inDir
  rw [Listing.at?_append found, Listing.at?_singleton] at missing
  rw [remove, halting]
  simp only [eraseAt, List.getLast?_append, List.getLast?_singleton, Option.some_or,
    List.dropLast_concat, putAt, Listing.change_change]
  exact Listing.entryAt?_change_of_same found (Listing.erase_put missing) location

end Disk

end ManifestSearch
