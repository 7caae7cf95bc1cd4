import ManifestSearch.Proofs.Tree.Below
import ManifestSearch.Tree.World

/-!
Trees that only grow. Making a file or a directory under a free name leaves every leaf as it is and
every directory a directory, so what a text led to before it leads to afterwards, and the text that
was free leads to what was made.
-/

namespace ManifestSearch

variable {name other : String} {node : Node} {listing inside before after : Listing}
  {location directory place : Location}

namespace Listing

/-- Induction over the entries of a listing, whatever they are. -/
@[elab_as_elim]
theorem cons_induction {motive : Listing → Prop} (nil : motive nil)
    (cons : ∀ name node rest, motive rest → motive (Listing.cons name node rest))
    (listing : Listing) : motive listing := by
  induction listing with
  | nil => exact nil
  | leaf name held rest ih => exact cons name (.leaf held) rest ih
  | dir name inside rest _ ih => exact cons name (.dir inside) rest ih

@[simp]
theorem find?_cons (name other : String) (node : Node) (listing : Listing) :
    (cons name node listing).find? other =
      if other = name then some node else listing.find? other := by
  cases node with
  | leaf held => rfl
  | dir inside => rfl

theorem put_cons (name other : String) (node next : Node) (rest : Listing) :
    (cons other next rest).put name node =
      if name < other then cons name node (cons other next rest)
      else if name = other then cons name node rest
      else cons other next (rest.put name node) := by
  cases next with
  | leaf held => rfl
  | dir inside => rfl

theorem find?_put (listing : Listing) (name other : String) (node : Node) :
    (listing.put name node).find? other =
      if other = name then some node else listing.find? other := by
  induction listing using cons_induction with
  | nil => simp [put]
  | cons first next rest ih =>
      rw [put_cons]
      split
      · simp
      · split
        · rename_i same
          subst same
          by_cases here : other = name
          · simp [here]
          · simp [here]
        · rename_i different
          by_cases here : other = first
          · subst here
            simp [Ne.symm different]
          · simp [here, ih]

/-- Leaves stay as they are, and directories stay directories. -/
structure Grows (before after : Listing) : Prop where
  leaf : ∀ location held, before.at? location = some (.leaf held) →
    after.at? location = some (.leaf held)
  dir : ∀ location inside, before.at? location = some (.dir inside) →
    ∃ grown, after.at? location = some (.dir grown)

theorem Grows.refl (listing : Listing) : Grows listing listing :=
  ⟨fun _ _ held => held, fun _ inside held => ⟨inside, held⟩⟩

theorem Grows.trans {middle : Listing} (first : Grows before middle) (second : Grows middle after) :
    Grows before after := by
  refine ⟨fun location held stands => second.leaf location held (first.leaf location held stands), ?_⟩
  intro location inside stands
  obtain ⟨grown, found⟩ := first.dir location inside stands
  exact second.dir location grown found

theorem Grows.put (free : listing.find? name = none) (node : Node) :
    Grows listing (listing.put name node) := by
  have same (location : Location) (found : Node) (occupied : location ≠ [])
      (stands : listing.at? location = some found) :
      (listing.put name node).at? location = some found := by
    obtain ⟨first, rest, rfl⟩ := List.exists_cons_of_ne_nil occupied
    rw [at?_cons] at stands ⊢
    have other : first ≠ name := by
      intro same
      subst same
      simp [free] at stands
    rwa [find?_put, if_neg other]
  constructor
  · intro location held stands
    exact same location _ (ne_nil_of_at?_leaf stands) stands
  · intro location inside stands
    by_cases empty : location = []
    · subst empty
      exact ⟨_, rfl⟩
    · exact ⟨inside, same location _ empty stands⟩

theorem Grows.put_dir {grown : Listing} (found : listing.find? name = some (.dir inside))
    (grows : Grows inside grown) : Grows listing (listing.put name (.dir grown)) := by
  constructor
  · intro location held stands
    cases location with
    | nil => simp [at?] at stands
    | cons first rest =>
        rw [at?_cons] at stands ⊢
        rw [find?_put]
        by_cases here : first = name
        · subst here
          simp only [found, Option.bind_some] at stands
          rw [if_pos rfl]
          exact grows.leaf rest held stands
        · rwa [if_neg here]
  · intro location below stands
    cases location with
    | nil => exact ⟨_, rfl⟩
    | cons first rest =>
        rw [at?_cons] at stands ⊢
        rw [find?_put]
        by_cases here : first = name
        · subst here
          simp only [found, Option.bind_some] at stands
          rw [if_pos rfl]
          exact grows.dir rest below stands
        · rw [if_neg here]
          exact ⟨below, stands⟩

theorem Grows.change {edit : Listing → Listing}
    (grows : ∀ inside, listing.at? location = some (.dir inside) → Grows inside (edit inside)) :
    Grows listing (listing.change edit location) := by
  induction location generalizing listing with
  | nil => exact grows listing rfl
  | cons name rest ih =>
      simp only [Listing.change]
      split
      · rename_i inside found
        refine Grows.put_dir found (ih fun below stands => grows below ?_)
        rw [at?_cons, found]
        exact stands
      · exact Grows.refl listing

theorem at?_change {edit : Listing → Listing} (found : listing.at? location = some (.dir inside)) :
    (listing.change edit location).at? location = some (.dir (edit inside)) := by
  induction location generalizing listing with
  | nil =>
      cases found
      rfl
  | cons name rest ih =>
      obtain ⟨below, step, deeper⟩ := find?_of_at?_dir found
      simp only [Listing.change, step]
      rw [at?_cons, find?_put, if_pos rfl]
      exact ih deeper

end Listing

namespace Disk

open Listing (Grows)

variable {disk grown : Disk} {root : Listing} {throughLast : Bool} {links : Nat}
  {steps : List Step} {spot : Spot} {text content : String} {fault : Fault}

theorem putAt_grows (free : disk.root.at? (directory ++ [name]) = none) (node : Node) :
    Grows disk.root (disk.putAt directory name node).root := by
  refine Grows.change fun inside found => Grows.put ?_ node
  rwa [Listing.at?_append found, Listing.at?_singleton] at free

theorem at?_putAt (found : disk.root.at? directory = some (.dir inside)) (node : Node) :
    (disk.putAt directory name node).root.at? (directory ++ [name]) = some node := by
  have changed : (disk.putAt directory name node).root.at? directory =
      some (.dir (inside.put name node)) := Listing.at?_change found
  rw [Listing.at?_append changed, Listing.at?_singleton, Listing.find?_put, if_pos rfl]

/-! Resolutions in a tree that has grown. -/

theorem Leads.grows (leads : Leads before throughLast links place steps (.taken location))
    (grows : Grows before after) : Leads after throughLast links place steps (.taken location) := by
  generalize reached : Spot.taken location = spot at leads ⊢
  induction leads with
  | arrive => exact .arrive
  | stay onward ih => exact .stay (ih reached)
  | up onward ih => exact .up (ih reached)
  | free fits held => contradiction
  | file fits held => exact .file fits (grows.leaf _ _ held)
  | halt fits held last => exact .halt fits (grows.leaf _ _ held) last
  | enter fits held onward ih =>
      obtain ⟨grown, found⟩ := grows.dir _ _ held
      exact .enter fits found (ih reached)
  | follow fits held inner onward ih => exact .follow fits (grows.leaf _ _ held) inner (ih reached)

theorem Leads.free_in_dir (leads : Leads root throughLast links place steps (.free directory name))
    (here : isDirAt root place) :
    isDirAt root directory ∧ root.at? (directory ++ [name]) = none := by
  generalize reached : Spot.free directory name = spot at leads
  induction leads with
  | arrive => contradiction
  | stay onward ih => exact ih here reached
  | up onward ih => exact ih (isDirAt_dropLast here) reached
  | free fits held =>
      cases reached
      exact ⟨here, held⟩
  | file fits held => contradiction
  | halt fits held last => contradiction
  | enter fits held onward ih => exact ih (isDirAt_iff.mpr ⟨_, held⟩) reached
  | follow fits held inner onward ih => exact ih (isDirAt_start _ here) reached

theorem Leads.taken_of_free {further : Bool}
    (leads : Leads before throughLast links place steps (.free directory name))
    (wider : throughLast → further) (grows : Grows before after)
    (made : after.at? (directory ++ [name]) = some node)
    (kind : ∀ target, node ≠ .leaf (.link target)) :
    Leads after further links place steps (.taken (directory ++ [name])) := by
  generalize reached : Spot.free directory name = spot at leads
  induction leads with
  | arrive => contradiction
  | stay onward ih => exact .stay (ih reached)
  | up onward ih => exact .up (ih reached)
  | free fits held =>
      cases reached
      cases node with
      | dir inside => exact .enter fits made .arrive
      | leaf held =>
          cases held with
          | file content => exact .file fits made
          | link target => exact absurd rfl (kind target)
  | file fits held => contradiction
  | halt fits held last => contradiction
  | enter fits held onward ih =>
      obtain ⟨grown, found⟩ := grows.dir _ _ held
      exact .enter fits found (ih reached)
  | follow fits held inner onward ih =>
      exact .follow fits (grows.leaf _ _ held) (inner.imp_right wider) (ih reached)

/-! Operations that make something. -/

theorem leads_of_depart (reached : depart root throughLast place steps = .ok spot) :
    isDirAt root place ∧ Leads root throughLast linkLimit place steps spot := by
  rw [depart] at reached
  split at reached
  · rename_i here
    exact ⟨here, leads_of_travel reached⟩
  · contradiction

theorem leads_of_drift (reached : disk.drift throughLast steps = .ok (.free directory name)) :
    ∃ start rest, rest <:+ steps ∧ isDirAt disk.root start ∧
      Leads disk.root throughLast linkLimit start rest (.free directory name) := by
  induction steps with
  | nil => simp [drift] at reached
  | cons step steps ih =>
      cases step with
      | stay =>
          obtain ⟨start, rest, ending, leads⟩ := ih reached
          exact ⟨start, rest, ending.trans (List.suffix_cons _ _), leads⟩
      | up => exact ⟨_, steps, List.suffix_cons _ _, leads_of_depart reached⟩
      | into name => contradiction

/-- A free name is where the last steps of a text lead from some directory. -/
theorem leads_of_free
    (reached : disk.reachBy throughLast text steps = .ok (.free directory name)) :
    '\x00' ∉ text.toList ∧ ∃ start rest, rest <:+ steps ∧ isDirAt disk.root start ∧
      Leads disk.root throughLast linkLimit start rest (.free directory name) := by
  rw [reachBy] at reached
  split at reached
  · contradiction
  · rename_i noNul
    refine ⟨by simpa using noNul, ?_⟩
    split at reached
    · contradiction
    · split at reached
      · contradiction
      · split at reached
        · exact ⟨_, steps, List.suffix_rfl, leads_of_depart reached⟩
        · split at reached
          · exact leads_of_drift reached
          · exact ⟨_, steps, List.suffix_rfl, leads_of_depart reached⟩

theorem free_of_reachBy
    (reached : disk.reachBy throughLast text steps = .ok (.free directory name)) :
    isDirAt disk.root directory ∧ disk.root.at? (directory ++ [name]) = none := by
  obtain ⟨-, start, rest, -, here, leads⟩ := leads_of_free reached
  exact leads.free_in_dir here

theorem makeDir_grows (made : disk.makeDir text = .ok grown) : Grows disk.root grown.root := by
  rw [makeDir] at made
  split at made
  · contradiction
  · contradiction
  · contradiction
  · rename_i reached
    cases made
    exact putAt_grows (free_of_reachBy reached).2 _

/-- What each directory that is made keeps, making one directory after the other keeps too. -/
theorem makeThrough_relates (related : Disk → Disk → Prop) {texts : List String}
    {outcome : Except Fault Unit} (same : ∀ disk, related disk disk)
    (trans : ∀ {first middle last}, related first middle → related middle last → related first last)
    (step : ∀ {disk text grown}, text ∈ texts → Disk.makeDir disk text = .ok grown →
      related disk grown)
    (made : disk.makeThrough texts = (outcome, grown)) : related disk grown := by
  induction texts generalizing outcome grown with
  | nil =>
      cases made
      exact same _
  | cons text above ih =>
      have settled {lower : Disk} {fault : Fault} (below : related disk lower)
          (ended : (if lower.isDir text then (.ok (), lower) else (.error fault, lower)) =
            (outcome, grown)) : related disk grown := by
        split at ended
        · cases ended
          exact below
        · cases ended
          exact below
      simp only [makeThrough] at made
      split at made
      · rename_i first
        cases made
        exact step (.head above) first
      · split at made
        · rename_i higher
          cases made
          exact ih (fun member => step (.tail text member)) higher
        · rename_i lower higher
          have below := ih (fun member => step (.tail text member)) higher
          split at made
          · rename_i second
            cases made
            exact trans below (step (.head above) second)
          · exact settled below made
      · exact settled (same _) made

/-- Making directories takes nothing away, whether or not it succeeds. -/
theorem makeDirs_grows {outcome : Except Fault Unit} (made : disk.makeDirs text = (outcome, grown)) :
    Grows disk.root grown.root :=
  makeThrough_relates (fun before after => Grows before.root after.root)
    (fun _ => Grows.refl _) Grows.trans (fun _ => makeDir_grows) made

theorem reach_grows (rooted : startsAtRoot text) (growth : Grows disk.root grown.root)
    (reached : disk.reach throughLast text = .ok (.taken location)) :
    grown.reach throughLast text = .ok (.taken location) := by
  obtain ⟨noNul, short, leads⟩ := reach_ok rooted reached
  rw [reach_of_startsAtRoot rooted noNul short]
  exact (leads.grows growth).travel

end Disk

theorem World.makeNew_ok {make : Disk → String → Except Fault Disk} {place : Tag → String}
    {tries : Nat} {world next : World} {made : String}
    (drawn : World.makeNew make place tries world = (.ok made, next)) :
    (∃ tag, made = place tag) ∧ make world.disk made = .ok next.disk := by
  induction tries generalizing world with
  | zero => simp [makeNew] at drawn
  | succ tries ih =>
      simp only [makeNew] at drawn
      split at drawn
      · rename_i disk first
        cases drawn
        exact ⟨⟨_, rfl⟩, first⟩
      · obtain ⟨drawnTag, created⟩ := ih drawn
        exact ⟨drawnTag, created⟩
      · simp at drawn

theorem World.makeNew_error {make : Disk → String → Except Fault Disk} {place : Tag → String}
    {tries : Nat} {world next : World} {refused : String × Fault}
    (drawn : World.makeNew make place tries world = (.error refused, next)) :
    next.disk = world.disk := by
  induction tries generalizing world with
  | zero =>
      cases drawn
      rfl
  | succ tries ih =>
      simp only [makeNew] at drawn
      split at drawn
      · simp at drawn
      · exact (ih drawn).trans rfl
      · cases drawn
        rfl

end ManifestSearch
