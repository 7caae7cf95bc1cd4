import ManifestSearch.Proofs.Tree.Making

/-!
What is left by writing a new file in a directory that is made if it misses. The tree keeps its order
and all that was in it; the leaves in it are those from before and the new file (`Wrote`).
-/

namespace ManifestSearch

variable {name other : String} {node next : Node} {listing inside rest : Listing}
  {location place : Location} {held : Leaf}

namespace Listing

/-! Order is kept. -/

theorem mem_names_cons : other ∈ (cons name node listing).names ↔ other = name ∨ other ∈ listing.names := by
  cases node with
  | leaf held => exact List.mem_cons
  | dir inside => exact List.mem_cons

theorem mem_names_put (member : other ∈ (listing.put name node).names) :
    other = name ∨ other ∈ listing.names := by
  induction listing using cons_induction with
  | nil => exact mem_names_cons.mp member
  | cons first next rest ih =>
      rw [put_cons] at member
      split at member
      · exact mem_names_cons.mp member
      · split at member
        · exact (mem_names_cons.mp member).imp_right fun held => mem_names_cons.mpr (.inr held)
        · rcases mem_names_cons.mp member with same | held
          · exact .inr (mem_names_cons.mpr (.inl same))
          · exact (ih held).imp_right fun held => mem_names_cons.mpr (.inr held)

theorem ordered_cons : (cons name node listing).Ordered ↔
    (∀ later ∈ listing.names, name < later) ∧ (∀ inside, node = .dir inside → inside.Ordered) ∧
      listing.Ordered := by
  cases node with
  | leaf held => simp [cons, Ordered]
  | dir inside => simp [cons, Ordered]

theorem Ordered.put (ordered : listing.Ordered) (inner : ∀ inside, node = .dir inside → inside.Ordered) :
    (listing.put name node).Ordered := by
  induction listing using cons_induction with
  | nil => exact ordered_cons.mpr ⟨by simp [names], inner, trivial⟩
  | cons first next rest ih =>
      obtain ⟨before, kept, others⟩ := ordered_cons.mp ordered
      rw [put_cons]
      split
      · rename_i less
        refine ordered_cons.mpr ⟨fun other member => ?_, inner, ordered⟩
        rcases mem_names_cons.mp member with rfl | member
        · exact less
        · exact Std.lt_trans less (before other member)
      · rename_i notLess
        split
        · rename_i same
          subst same
          exact ordered_cons.mpr ⟨before, inner, others⟩
        · rename_i different
          refine ordered_cons.mpr ⟨fun other member => ?_, kept, ih others⟩
          rcases mem_names_put member with rfl | member
          · exact Std.lt_of_le_of_ne (Std.not_lt.mp notLess) (Ne.symm different)
          · exact before other member

theorem Ordered.change {edit : Listing → Listing} (ordered : listing.Ordered)
    (edited : ∀ inside : Listing, inside.Ordered → (edit inside).Ordered) :
    (listing.change edit location).Ordered := by
  induction location generalizing listing with
  | nil => exact edited listing ordered
  | cons name location ih =>
      simp only [Listing.change]
      split
      · rename_i inside found
        refine ordered.put fun below same => ?_
        cases same
        exact ih (ordered.find? found)
      · exact ordered

theorem entryAt?_eq_leaf :
    listing.entryAt? location = some (.leaf held) ↔ listing.at? location = some (.leaf held) := by
  unfold entryAt?
  cases listing.at? location with
  | none => simp
  | some node =>
      cases node with
      | leaf other => simp [Node.entry]
      | dir inside => simp [Node.entry]

/-- A tree grows if what stands at a place goes on standing there. -/
theorem grows_of_kept {before after : Listing}
    (kept : ∀ location, before.entryAt? location ≠ none →
      after.entryAt? location = before.entryAt? location) : Grows before after := by
  refine ⟨fun location held stands => ?_, fun location inside stands => ?_⟩
  · rw [← entryAt?_eq_leaf] at stands ⊢
    rw [kept location (by simp [stands]), stands]
  · have dir : before.entryAt? location = some .dir := by simp [entryAt?, stands, Node.entry]
    rw [← kept location (by simp [dir])] at dir
    exact Disk.isDirAt_iff.mp (isDirAt_of_entryAt? dir)

theorem AddsDirs.grows {before after : Listing} (adds : AddsDirs before after) :
    Grows before after :=
  grows_of_kept fun location stands => (adds location).resolve_right fun new => stands new.1

end Listing

namespace Disk

open Listing (Grows)

variable {disk before after middle : Disk} {directory : Location} {text content : String}

theorem putAt_ordered (ordered : disk.root.Ordered)
    (inner : ∀ inside, node = .dir inside → inside.Ordered) :
    (disk.putAt directory name node).root.Ordered :=
  ordered.change fun _ below => below.put inner

theorem makeDirs_ordered {outcome : Except Fault Unit}
    (made : disk.makeDirs text = (outcome, after)) (ordered : disk.root.Ordered) :
    after.root.Ordered := by
  refine makeThrough_relates (fun before after => before.root.Ordered → after.root.Ordered)
    (fun _ held => held) (fun first second held => second (first held)) ?_ made ordered
  intro disk text grown _ made ordered
  obtain ⟨directory, name, -, rfl⟩ := makeDir_ok made
  refine putAt_ordered ordered fun inside same => ?_
  cases same
  trivial

/-- A tree with one file more, which a text leads to that led to nothing before, and perhaps with
directories more. -/
structure Wrote (before after : Disk) (text content : String) (place : Location) : Prop where
  grows : Grows before.root after.root
  ordered : before.root.Ordered → after.root.Ordered
  free : ∀ location, before.reach false text ≠ .ok (.taken location)
  missing : before.root.at? place = none
  reached : after.reach true text = .ok (.taken place)
  placed : after.root.at? place = some (.leaf (.file content))
  leaves : ∀ location held, after.root.at? location = some (.leaf held) →
    before.root.at? location = some (.leaf held) ∨ location = place

/-- A file in a directory that was made for it. -/
theorem wrote_of_create {above : String} {outcome : Except Fault Unit} (rooted : startsAtRoot text)
    (dirs : before.makeDirs above = (outcome, middle)) (made : middle.create text content = .ok after) :
    ∃ place, Wrote before after text content place := by
  obtain ⟨directory, name, whole, gains⟩ := create_gains rooted made
  have added := (makeDirs_addsDirs dirs).tree
  have growth := makeDirs_grows dirs
  refine ⟨directory ++ [name], growth.trans (create_grows made), ?_, ?_, ?_, gains.reached,
    gains.placed, ?_⟩
  · intro ordered
    exact whole ▸ putAt_ordered (makeDirs_ordered dirs ordered) (by simp)
  · intro location taken
    have still := reach_grows rooted growth taken
    simp [gains.free] at still
  · rcases added (directory ++ [name]) with same | ⟨free, -⟩
    · rw [← Listing.entryAt?_eq_none, ← same]
      exact Listing.entryAt?_eq_none.mpr gains.missing
    · exact Listing.entryAt?_eq_none.mp free
  · intro location held stands
    by_cases here : location = directory ++ [name]
    · exact .inr here
    · rw [← Listing.entryAt?_eq_leaf, gains.entries, if_neg here] at stands
      rcases added location with same | ⟨-, dir⟩
      · exact .inl (Listing.entryAt?_eq_leaf.mp (same.symm.trans stands))
      · simp [dir] at stands

/-- What was written is still read after the tree has grown further. -/
theorem Wrote.read {later : Disk} (wrote : Wrote before after text content place)
    (rooted : startsAtRoot text) (growth : Grows after.root later.root) :
    later.read text = .ok content := by
  have reached := reach_grows rooted growth wrote.reached
  rw [Disk.read, node_of_reach reached (growth.leaf place _ wrote.placed)]

/-- A text that is read names something, also where a link at its end is not followed. -/
theorem node_of_read (rooted : startsAtRoot text) (read : disk.read text = .ok content) :
    ∃ node, disk.node false text = .ok node := by
  rw [Disk.read] at read
  split at read
  · contradiction
  · rename_i found
    obtain ⟨place, reached, held⟩ := node_ok rooted found
    obtain ⟨noNul, short, leads⟩ := reach_ok rooted reached
    obtain ⟨ending, halting, kind⟩ := leads.halting
    have stops := (reach_of_startsAtRoot rooted noNul short false).trans halting.travel
    rcases kind with rfl | ⟨target, link⟩
    · exact ⟨_, node_of_reach stops held⟩
    · exact ⟨_, node_of_reach stops link⟩
  · contradiction
  · contradiction

/-- A text that was written can not be written again. -/
theorem Wrote.taken (wrote : Wrote before after text content place) (rooted : startsAtRoot text) :
    ∃ location, after.reach false text = .ok (.taken location) := by
  obtain ⟨noNul, short, leads⟩ := reach_ok rooted wrote.reached
  obtain ⟨ending, halting, -⟩ := leads.halting
  exact ⟨ending, (reach_of_startsAtRoot rooted noNul short false).trans halting.travel⟩

end Disk

end ManifestSearch
