import ManifestSearch.Proofs.Tree.Below

/-!
A link at the end of a text. Whether it is followed makes no other difference: a text names the same
node either way, unless it names a link. So it is from the root, from the working directory, and
from one that was taken away.
-/

namespace ManifestSearch.Disk

variable {disk : Disk} {root : Listing} {throughLast : Bool} {links : Nat}
  {place ending middle : Location} {steps : List Step} {text : String} {node : Node}

/-- What is not a link at the end is reached by following links to the end too. -/
theorem Leads.through (leads : Leads root false links place steps (.taken ending))
    (kind : ∀ target, root.at? ending ≠ some (.leaf (.link target))) :
    Leads root true links place steps (.taken ending) := by
  generalize reached : Spot.taken ending = spot at leads ⊢
  induction leads with
  | arrive => exact .arrive
  | stay onward ih => exact .stay (ih reached)
  | up onward ih => exact .up (ih reached)
  | free fits held => contradiction
  | file fits held => exact .file fits held
  | halt fits held last =>
      cases reached
      exact absurd held (kind _)
  | enter fits held onward ih => exact .enter fits held (ih reached)
  | follow fits held inner onward ih => exact .follow fits held (.inr rfl) (ih reached)

theorem drift_cases (disk : Disk) (steps : List Step) :
    (∃ fault, ∀ throughLast, disk.drift throughLast steps = .error fault) ∨
      (∀ throughLast, disk.drift throughLast steps = .ok .adrift) ∨
      ∃ start rest, ∀ throughLast,
        disk.drift throughLast steps = depart disk.root throughLast start rest := by
  induction steps with
  | nil => exact .inr (.inl fun _ => rfl)
  | cons step steps ih =>
      cases step with
      | stay => exact ih
      | up => exact .inr (.inr ⟨_, _, fun _ => rfl⟩)
      | into name => exact .inl ⟨_, fun _ => rfl⟩

theorem depart_cases (root : Listing) (start : Location) (steps : List Step) :
    (∃ fault, ∀ throughLast, depart root throughLast start steps = .error fault) ∨
      ∀ throughLast, depart root throughLast start steps =
        travel root throughLast linkLimit start steps := by
  by_cases here : isDirAt root start
  · exact .inr fun _ => if_pos here
  · exact .inl ⟨_, fun _ => if_neg here⟩

/-- A text is refused, or leads to a working directory that was taken away, or is resolved from
some directory; which of these is the case does not depend on whether a link at its end is
followed. -/
theorem reachBy_cases (disk : Disk) (text : String) (steps : List Step) :
    (∃ fault, ∀ throughLast, disk.reachBy throughLast text steps = .error fault) ∨
      (∀ throughLast, disk.reachBy throughLast text steps = .ok .adrift) ∨
      ∃ start rest, ∀ throughLast, disk.reachBy throughLast text steps =
        travel disk.root throughLast linkLimit start rest := by
  have departs (start : Location) (rest : List Step)
      (same : ∀ throughLast, disk.reachBy throughLast text steps =
        depart disk.root throughLast start rest) :
      (∃ fault, ∀ throughLast, disk.reachBy throughLast text steps = .error fault) ∨
        ∃ start rest, ∀ throughLast, disk.reachBy throughLast text steps =
          travel disk.root throughLast linkLimit start rest := by
    rcases depart_cases disk.root start rest with ⟨fault, refused⟩ | travels
    · exact .inl ⟨fault, fun throughLast => (same throughLast).trans (refused throughLast)⟩
    · exact .inr ⟨start, rest, fun throughLast => (same throughLast).trans (travels throughLast)⟩
  by_cases nul : text.toList.contains '\x00'
  · exact .inl ⟨_, fun _ => if_pos nul⟩
  by_cases empty : text = ""
  · exact .inl ⟨.notFound, fun _ => by rw [reachBy, if_neg nul, if_pos empty]⟩
  by_cases long : text.utf8ByteSize ≥ pathLimit
  · exact .inl ⟨.nameTooLong, fun _ => by rw [reachBy, if_neg nul, if_neg empty, if_pos long]⟩
  by_cases rooted : startsAtRoot text
  · have same (throughLast : Bool) : disk.reachBy throughLast text steps =
        depart disk.root throughLast [] steps := by
      rw [reachBy, if_neg nul, if_neg empty, if_neg long, if_pos rooted]
    exact (departs _ _ same).imp_right .inr
  by_cases adrift : disk.adrift
  · have same (throughLast : Bool) : disk.reachBy throughLast text steps =
        disk.drift throughLast steps := by
      rw [reachBy, if_neg nul, if_neg empty, if_neg long, if_neg rooted, if_pos adrift]
    rcases drift_cases disk steps with ⟨fault, refused⟩ | lost | ⟨start, rest, goesOn⟩
    · exact .inl ⟨fault, fun throughLast => (same throughLast).trans (refused throughLast)⟩
    · exact .inr (.inl fun throughLast => (same throughLast).trans (lost throughLast))
    · exact (departs start rest fun throughLast =>
        (same throughLast).trans (goesOn throughLast)).imp_right .inr
  · have same (throughLast : Bool) : disk.reachBy throughLast text steps =
        depart disk.root throughLast disk.here steps := by
      rw [reachBy, if_neg nul, if_neg empty, if_neg long, if_neg rooted, if_neg adrift]
    exact (departs _ _ same).imp_right .inr

theorem node_of_adrift (lost : disk.reach throughLast text = .ok .adrift) :
    disk.node throughLast text = .ok (.dir .nil) := by
  rw [Disk.node, lost]

theorem taken_of_node {start : Location} {rest : List Step}
    (travels : disk.reach throughLast text = travel disk.root throughLast links start rest)
    (found : disk.node throughLast text = .ok node) :
    ∃ place, Leads disk.root throughLast links start rest (.taken place) ∧
      disk.root.at? place = some node := by
  rw [Disk.node, travels] at found
  split at found
  · contradiction
  · contradiction
  · rename_i reached
    exact absurd rfl (leads_of_travel reached).ne_adrift
  · rename_i place reached
    split at found
    · rename_i held
      cases found
      exact ⟨place, leads_of_travel reached, held⟩
    · contradiction

theorem node_unfollowed (found : disk.node true text = .ok node) :
    disk.node false text = .ok node ∨
      ∃ target, disk.node false text = .ok (.leaf (.link target)) := by
  rcases reachBy_cases disk text (Step.all text) with ⟨fault, refused⟩ | lost | ⟨start, rest, travels⟩
  · have refused : disk.reach true text = .error fault := refused true
    simp [Disk.node, refused] at found
  · have both : disk.node true text = .ok (.dir .nil) := node_of_adrift (lost true)
    rw [both] at found
    cases found
    exact .inl (node_of_adrift (lost false))
  · obtain ⟨place, leads, held⟩ := taken_of_node (travels true) found
    obtain ⟨ending, halting, rfl | ⟨target, link⟩⟩ := leads.halting
    · exact .inl (node_of_reach ((travels false).trans halting.travel) held)
    · exact .inr ⟨target, node_of_reach ((travels false).trans halting.travel) link⟩

theorem node_followed (found : disk.node false text = .ok node)
    (kind : ∀ target, node ≠ .leaf (.link target)) : disk.node true text = .ok node := by
  rcases reachBy_cases disk text (Step.all text) with ⟨fault, refused⟩ | lost | ⟨start, rest, travels⟩
  · have refused : disk.reach false text = .error fault := refused false
    simp [Disk.node, refused] at found
  · have both : disk.node false text = .ok (.dir .nil) := node_of_adrift (lost false)
    rw [both] at found
    cases found
    exact node_of_adrift (lost true)
  · obtain ⟨place, leads, held⟩ := taken_of_node (travels false) found
    have through := leads.through fun target link =>
      kind target (Option.some.inj (held.symm.trans link))
    exact node_of_reach ((travels true).trans through.travel) held

end ManifestSearch.Disk
