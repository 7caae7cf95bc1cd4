import ManifestSearch.Proofs.Tree.Erasing

/-!
What every change of a tree keeps. A new name is a step in the text that it is made by, or in the target
of a link at the end of that text, so it is one that an entry can have; and it is put in its place in the
order of the names. So a sound tree stays sound, whatever is made in it, written or taken away, as long as
the targets of its links can be followed (`edited_intact`).
-/

namespace ManifestSearch

open ManifestSearch.Path (IsSegment)

variable {name other : String} {node : Node} {listing inside : Listing} {location : Location}
  {condition : String → Prop}

namespace Listing

/-- A condition that a listing meets if each of its entries does, by itself and with what is in it. -/
structure Entrywise (holds : Listing → Prop) (single : String → Node → Prop) : Prop where
  nil : holds nil
  cons : ∀ {name node rest}, holds (cons name node rest) ↔
    (single name node ∧ ∀ inside, node = .dir inside → holds inside) ∧ holds rest
  dir : ∀ {name inside changed}, single name (.dir inside) → single name (.dir changed)

namespace Entrywise

variable {holds : Listing → Prop} {single : String → Node → Prop}

theorem put (entrywise : Entrywise holds single) (new : single name node)
    (inner : ∀ inside, node = .dir inside → holds inside) (held : holds listing) :
    holds (listing.put name node) := by
  induction listing using cons_induction with
  | nil => exact entrywise.cons.mpr ⟨⟨new, inner⟩, held⟩
  | cons first next rest ih =>
      obtain ⟨entry, others⟩ := entrywise.cons.mp held
      rw [put_cons]
      split
      · exact entrywise.cons.mpr ⟨⟨new, inner⟩, held⟩
      · split
        · exact entrywise.cons.mpr ⟨⟨new, inner⟩, others⟩
        · exact entrywise.cons.mpr ⟨entry, ih others⟩

theorem erase (entrywise : Entrywise holds single) (held : holds listing) :
    holds (listing.erase name) := by
  induction listing using cons_induction with
  | nil => exact held
  | cons first next rest ih =>
      obtain ⟨entry, others⟩ := entrywise.cons.mp held
      rw [erase_cons]
      split
      · exact others
      · exact entrywise.cons.mpr ⟨entry, ih others⟩

theorem find? (entrywise : Entrywise holds single) (held : holds listing)
    (found : listing.find? name = some node) :
    single name node ∧ ∀ inside, node = .dir inside → holds inside := by
  induction listing using cons_induction with
  | nil => simp [Listing.find?] at found
  | cons first next rest ih =>
      obtain ⟨entry, others⟩ := entrywise.cons.mp held
      rw [find?_cons] at found
      split at found
      · rename_i same
        cases found
        exact same ▸ entry
      · exact ih others found

theorem change {edit : Listing → Listing} (entrywise : Entrywise holds single)
    (edited : ∀ inside, holds inside → holds (edit inside)) (held : holds listing) :
    holds (listing.change edit location) := by
  induction location generalizing listing with
  | nil => exact edited listing held
  | cons name location ih =>
      simp only [Listing.change]
      split
      · rename_i inside found
        obtain ⟨entry, below⟩ := entrywise.find? held found
        refine entrywise.put (entrywise.dir entry) (fun changed same => ?_) held
        cases same
        exact ih (below inside rfl)
      · exact held

end Entrywise

theorem entrywise_everyName (condition : String → Prop) :
    Entrywise (EveryName condition) fun name _ => condition name := by
  refine ⟨trivial, fun {name node rest} => ?_, id⟩
  cases node with
  | leaf held => simp [cons, EveryName]
  | dir inside => simp [cons, EveryName, and_assoc]

/-- The targets of all links meet a condition. -/
def EveryTarget (condition : String → Prop) : Listing → Prop
  | nil => True
  | leaf _ (.file _) rest => rest.EveryTarget condition
  | leaf _ (.link target) rest => condition target ∧ rest.EveryTarget condition
  | dir _ inside rest => inside.EveryTarget condition ∧ rest.EveryTarget condition

theorem entrywise_everyTarget (condition : String → Prop) :
    Entrywise (EveryTarget condition) fun _ node =>
      ∀ target, node = .leaf (.link target) → condition target := by
  refine ⟨trivial, fun {name node rest} => ?_, fun _ => by simp⟩
  cases node with
  | leaf held => cases held <;> simp [cons, EveryTarget]
  | dir inside => simp [cons, EveryTarget]

theorem EveryTarget.at? {target : String} (every : listing.EveryTarget condition)
    (held : listing.at? location = some (.leaf (.link target))) : condition target := by
  induction location generalizing listing with
  | nil => simp [Listing.at?] at held
  | cons name back ih =>
      rw [at?_cons] at held
      cases first : listing.find? name with
      | none => simp [first] at held
      | some node =>
          obtain ⟨entry, below⟩ := (entrywise_everyTarget condition).find? every first
          cases node with
          | dir inside =>
              simp only [first, Option.bind_some] at held
              exact ih (below inside rfl) held
          | leaf other =>
              simp only [first, Option.bind_some, Option.ite_none_right_eq_some, Option.some.injEq]
                at held
              exact entry target held.2

theorem mem_names_erase (member : other ∈ (listing.erase name).names) : other ∈ listing.names := by
  induction listing using cons_induction with
  | nil => contradiction
  | cons first next rest ih =>
      rw [erase_cons] at member
      split at member
      · exact mem_names_cons.mpr (.inr member)
      · exact mem_names_cons.mpr ((mem_names_cons.mp member).imp_right ih)

theorem Ordered.erase (ordered : listing.Ordered) : (listing.erase name).Ordered := by
  induction listing using cons_induction with
  | nil => exact ordered
  | cons first next rest ih =>
      obtain ⟨before, kept, others⟩ := ordered_cons.mp ordered
      rw [erase_cons]
      split
      · exact others
      · exact ordered_cons.mpr ⟨fun other member => before other (mem_names_erase member), kept,
          ih others⟩

end Listing

/-! The names that texts give. -/

theorem Step.ofText_subset_all (text : String) : ofText text ⊆ all text := by
  rw [all]
  split
  · exact List.subset_append_left _ _
  · exact List.Subset.refl _

theorem Step.isSegment_of_mem {text : String} (member : .into name ∈ all text) :
    IsSegment name.toList ∧ name.toList ⊆ text.toList := by
  have step : .into name ∈ ofText text := by
    rw [all] at member
    split at member
    · simpa using member
    · exact member
  obtain ⟨piece, inText, spells⟩ := List.mem_map.mp step
  obtain ⟨inPieces, full⟩ := List.mem_filter.mp inText
  rw [ofPiece] at spells
  split at spells
  · contradiction
  · rename_i notDot
    split at spells
    · contradiction
    · rename_i notDots
      cases spells
      rw [String.toList_ofList]
      exact ⟨⟨by simpa using full, notDot, notDots, Text.not_mem_of_mem_pieces inPieces⟩,
        fun char inside => Text.mem_of_mem_pieces inPieces inside⟩

namespace Disk

variable {disk after : Disk} {root : Listing} {throughLast : Bool} {links : Nat} {steps : List Step}
  {place directory : Location} {text content target : String}

/-- A text without a NUL, which is all that the target of a link has to be. -/
def NoNul (text : String) : Prop := '\x00' ∉ text.toList

/-- A free name is the last step, or that of the target of a link at the end. -/
theorem Leads.isEntryName (leads : Leads root throughLast links place steps (.free directory name))
    (last : ∀ name, steps.getLast? = some (.into name) → IsSegment name.toList ∧ NoNul name)
    (targets : throughLast → root.EveryTarget NoNul) : IsEntryName name := by
  have later {step : Step} {rest : List Step}
      (last : ∀ name, (step :: rest).getLast? = some (.into name) → IsSegment name.toList ∧ NoNul name)
      (name : String) (ending : rest.getLast? = some (.into name)) :
      IsSegment name.toList ∧ NoNul name := last name (by simp [List.getLast?_cons, ending])
  generalize reached : Spot.free directory name = spot at leads
  induction leads with
  | arrive => contradiction
  | stay onward ih => exact ih (later last) reached
  | up onward ih => exact ih (later last) reached
  | free fits held =>
      cases reached
      obtain ⟨segment, noNul⟩ := last name rfl
      exact ⟨segment, noNul, fits⟩
  | file fits held => contradiction
  | halt fits held stops => contradiction
  | enter fits held onward ih => exact ih (later last) reached
  | @follow links place step target rest spot fits held inner onward ih =>
      refine ih (fun name ending => ?_) reached
      by_cases alone : rest = []
      · subst alone
        rw [List.append_nil] at ending
        have noNul := (targets (inner.resolve_left (by simp))).at? held
        obtain ⟨segment, inTarget⟩ := Step.isSegment_of_mem (List.mem_of_getLast? ending)
        exact ⟨segment, fun member => noNul (inTarget member)⟩
      · rw [List.getLast?_append, List.getLast?_eq_some_getLast alone, Option.some_or] at ending
        exact later last name (by rw [List.getLast?_eq_some_getLast alone, ending])

theorem isEntryName_of_free
    (reached : disk.reachBy throughLast text steps = .ok (.free directory name))
    (within : ∀ step ∈ steps, step ∈ Step.all text)
    (targets : throughLast → disk.root.EveryTarget NoNul) : IsEntryName name := by
  obtain ⟨noNul, start, rest, ending, -, leads⟩ := leads_of_free reached
  refine leads.isEntryName (fun name last => ?_) targets
  obtain ⟨segment, inText⟩ :=
    Step.isSegment_of_mem (within _ (ending.subset (List.mem_of_getLast? last)))
  exact ⟨segment, fun member => noNul (inText member)⟩

/-- A sound tree whose links have targets that can be followed. -/
structure Intact (disk : Disk) : Prop where
  sound : disk.Sound
  targets : disk.root.EveryTarget NoNul

namespace Intact

theorem putAt (intact : disk.Intact) (valid : IsEntryName name) (bare : node.Bare)
    (followed : ∀ target, node = .leaf (.link target) → NoNul target) :
    (disk.putAt directory name node).Intact := by
  have names := Listing.entrywise_everyName IsEntryName
  have targets := Listing.entrywise_everyTarget NoNul
  refine ⟨⟨putAt_ordered intact.sound.ordered fun inside same => ?_, ?_⟩, ?_⟩
  · exact bare inside same ▸ trivial
  · exact names.change (fun _ held => names.put valid (fun inside same => bare inside same ▸ trivial)
      held) intact.sound.named
  · exact targets.change (fun _ held => targets.put followed
      (fun inside same => bare inside same ▸ trivial) held) intact.targets

theorem eraseAt (intact : disk.Intact) (location : Location) : (disk.eraseAt location).Intact := by
  have names := Listing.entrywise_everyName IsEntryName
  have targets := Listing.entrywise_everyTarget NoNul
  unfold Disk.eraseAt
  split
  · exact ⟨⟨intact.sound.ordered.change fun _ held => held.erase,
      names.change (fun _ held => names.erase held) intact.sound.named⟩,
      targets.change (fun _ held => targets.erase held) intact.targets⟩
  · exact intact

theorem makeDir (intact : disk.Intact) (made : disk.makeDir text = .ok after) : after.Intact := by
  obtain ⟨directory, name, free, rfl⟩ := makeDir_ok made
  have valid := isEntryName_of_free free (fun _ member => Step.ofText_subset_all text member) (by simp)
  exact intact.putAt valid bare_nil (by simp)

theorem makeDirs {outcome : Except Fault Unit} (intact : disk.Intact)
    (made : disk.makeDirs text = (outcome, after)) : after.Intact :=
  makeThrough_relates (fun before after => before.Intact → after.Intact) (fun _ held => held)
    (fun first second held => second (first held)) (fun _ made held => held.makeDir made) made intact

theorem create (intact : disk.Intact) (made : disk.create text content = .ok after) :
    after.Intact := by
  obtain ⟨directory, name, free, rfl⟩ := create_ok made
  exact intact.putAt (isEntryName_of_free free (fun _ member => member) (by simp)) (bare_leaf _)
    (by simp)

theorem link (intact : disk.Intact) (followed : NoNul target)
    (made : disk.link text target = .ok after) : after.Intact := by
  obtain ⟨directory, name, free, rfl⟩ := link_ok made
  refine intact.putAt (isEntryName_of_free free (fun _ member => member) (by simp)) (bare_leaf _)
    fun other same => ?_
  cases same
  exact followed

theorem write (intact : disk.Intact) (wrote : disk.write text content = .ok after) :
    after.Intact := by
  rw [Disk.write] at wrote
  split at wrote
  · contradiction
  · rename_i directory name free
    cases wrote
    have reached := reach_of_fileSpot free
    exact intact.putAt (isEntryName_of_free reached (fun _ member => member) fun _ => intact.targets)
      (bare_leaf _) (by simp)
  · contradiction
  · rename_i location _
    split at wrote
    · rename_i held name stands ending
      cases wrote
      exact intact.putAt
        ((intact.sound.named.at? stands).1 name (List.mem_of_getLast? ending)) (bare_leaf _) (by simp)
    · contradiction

theorem remove (intact : disk.Intact) (text : String) : (disk.remove text).Intact := by
  unfold Disk.remove
  split
  · exact intact.eraseAt _
  · exact intact

end Intact

/-- One change of a tree, whether or not it succeeds. -/
inductive Edit where
  | makeDir (text : String)
  | makeDirs (text : String)
  | create (text content : String)
  | write (text content : String)
  | link (text target : String)
  | remove (text : String)

/-- What an operation leaves that changes nothing if it fails. -/
def left (disk : Disk) : Except Fault Disk → Disk
  | .ok after => after
  | .error _ => disk

def Edit.run (disk : Disk) : Edit → Disk
  | makeDir text => disk.left (disk.makeDir text)
  | makeDirs text => (disk.makeDirs text).2
  | create text content => disk.left (disk.create text content)
  | write text content => disk.left (disk.write text content)
  | link text target => disk.left (disk.link text target)
  | remove text => disk.remove text

def edited (edits : List Edit) (disk : Disk) : Disk := edits.foldl Edit.run disk

theorem Intact.left {outcome : Except Fault Disk} (intact : disk.Intact)
    (keeps : ∀ after, outcome = .ok after → after.Intact) : (disk.left outcome).Intact := by
  cases outcome with
  | error fault => exact intact
  | ok after => exact keeps after rfl

theorem Edit.run_intact (intact : disk.Intact) (edit : Edit)
    (followed : ∀ text target, edit = .link text target → NoNul target) :
    (edit.run disk).Intact := by
  cases edit with
  | makeDir text => exact intact.left fun _ made => intact.makeDir made
  | makeDirs text => exact intact.makeDirs rfl
  | create text content => exact intact.left fun _ made => intact.create made
  | write text content => exact intact.left fun _ wrote => intact.write wrote
  | link text target => exact intact.left fun _ made => intact.link (followed text target rfl) made
  | remove text => exact intact.remove text

/-- Whatever is done to an intact tree, one change after the other, leaves an intact tree. -/
theorem edited_intact {edits : List Edit} (intact : disk.Intact)
    (followed : ∀ text target, .link text target ∈ edits → NoNul target) :
    (edited edits disk).Intact := by
  induction edits generalizing disk with
  | nil => exact intact
  | cons edit edits ih =>
      have first := edit.run_intact intact fun text target same => followed text target (by simp [same])
      exact ih first fun text target later => followed text target (by simp [later])

end Disk

end ManifestSearch
