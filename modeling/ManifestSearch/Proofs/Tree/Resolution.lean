import ManifestSearch.Proofs.Tree.Places

/-!
How a text is resolved, as rules. `Leads` has one rule for each way to take a step; a resolution
answers a spot exactly if the rules lead there (`travel_eq_ok_iff`). A resolution of steps and then
more steps goes on from where the first ones lead, with the links that are left.
-/

namespace ManifestSearch.Disk

/-- Where steps lead from a place while following at most so many links. -/
inductive Leads (root : Listing) (throughLast : Bool) : Nat → Location → List Step → Spot → Prop where
  | arrive {links : Nat} {place : Location} : Leads root throughLast links place [] (.taken place)
  | stay {links : Nat} {place : Location} {rest : List Step} {spot : Spot}
      (onward : Leads root throughLast links place rest spot) :
      Leads root throughLast links place (.stay :: rest) spot
  | up {links : Nat} {place : Location} {rest : List Step} {spot : Spot}
      (onward : Leads root throughLast links place.dropLast rest spot) :
      Leads root throughLast links place (.up :: rest) spot
  | free {links : Nat} {place : Location} {name : String}
      (fits : name.utf8ByteSize ≤ nameLimit) (held : root.at? (place ++ [name]) = none) :
      Leads root throughLast links place [.into name] (.free place name)
  | file {links : Nat} {place : Location} {name content : String}
      (fits : name.utf8ByteSize ≤ nameLimit)
      (held : root.at? (place ++ [name]) = some (.leaf (.file content))) :
      Leads root throughLast links place [.into name] (.taken (place ++ [name]))
  | halt {links : Nat} {place : Location} {name target : String}
      (fits : name.utf8ByteSize ≤ nameLimit)
      (held : root.at? (place ++ [name]) = some (.leaf (.link target)))
      (last : throughLast = false) :
      Leads root throughLast links place [.into name] (.taken (place ++ [name]))
  | enter {links : Nat} {place : Location} {name : String} {inside : Listing} {rest : List Step}
      {spot : Spot} (fits : name.utf8ByteSize ≤ nameLimit)
      (held : root.at? (place ++ [name]) = some (.dir inside))
      (onward : Leads root throughLast links (place ++ [name]) rest spot) :
      Leads root throughLast links place (.into name :: rest) spot
  | follow {links : Nat} {place : Location} {name target : String} {rest : List Step} {spot : Spot}
      (fits : name.utf8ByteSize ≤ nameLimit)
      (held : root.at? (place ++ [name]) = some (.leaf (.link target)))
      (inner : rest ≠ [] ∨ throughLast = true)
      (onward : Leads root throughLast links (if startsAtRoot target then [] else place)
        (Step.all target ++ rest) spot) :
      Leads root throughLast (links + 1) place (.into name :: rest) spot

variable {root : Listing} {throughLast : Bool} {links : Nat} {place top : Location}
  {name : String} {steps front back : List Step} {spot : Spot}

/-! The steps of a resolution. -/

def chase (root : Listing) (throughLast : Bool) :
    Nat → Location → String → List Step → Except Fault Spot
  | 0, _, _, _ => .error .linkLoop
  | links + 1, place, target, rest =>
      travel root throughLast links (if startsAtRoot target then [] else place)
        (Step.all target ++ rest)

theorem travel_eq : travel root throughLast links =
    advance root throughLast (chase root throughLast links) := by
  cases links <;> rfl

theorem advance_into {follow : Location → String → List Step → Except Fault Spot}
    (fits : name.utf8ByteSize ≤ nameLimit) :
    advance root throughLast follow place (.into name :: steps) =
      match root.at? (place ++ [name]) with
      | none => if steps = [] then .ok (.free place name) else .error .notFound
      | some (.dir _) => advance root throughLast follow (place ++ [name]) steps
      | some (.leaf (.file _)) =>
          if steps = [] then .ok (.taken (place ++ [name])) else .error .notDirectory
      | some (.leaf (.link target)) =>
          if steps = [] ∧ !throughLast then .ok (.taken (place ++ [name]))
          else follow place target steps := by
  rw [advance]
  exact if_neg (Nat.not_lt.mpr fits)

theorem leads_of_advance (chased : ∀ place target rest spot,
      chase root throughLast links place target rest = .ok spot → ∃ left, links = left + 1 ∧
        Leads root throughLast left (if startsAtRoot target then [] else place)
          (Step.all target ++ rest) spot)
    (run : advance root throughLast (chase root throughLast links) place steps = .ok spot) :
    Leads root throughLast links place steps spot := by
  -- Steps get fewer until a link is followed, and that costs a link, which is left to `chased`.
  induction steps generalizing place with
  | nil => cases run; exact .arrive
  | cons step rest ih =>
      cases step with
      | stay => exact .stay (ih run)
      | up => exact .up (ih run)
      | into name =>
          by_cases fits : name.utf8ByteSize ≤ nameLimit
          · rw [advance_into fits] at run
            split at run
            · rename_i held
              split at run
              · rename_i last
                cases last
                cases run
                exact .free fits held
              · contradiction
            · rename_i inside held
              exact .enter fits held (ih run)
            · rename_i content held
              split at run
              · rename_i last
                cases last
                cases run
                exact .file fits held
              · contradiction
            · rename_i target held
              split at run
              · rename_i last
                obtain ⟨rfl, stops⟩ := last
                cases run
                exact .halt fits held (by simpa using stops)
              · rename_i inner
                obtain ⟨left, rfl, onward⟩ := chased _ _ _ _ run
                refine .follow fits held ?_ onward
                by_cases last : rest = []
                · exact .inr (by simpa [last] using inner)
                · exact .inl last
          · rw [advance, if_pos (Nat.not_le.mp fits)] at run
            contradiction

theorem leads_of_travel (run : travel root throughLast links place steps = .ok spot) :
    Leads root throughLast links place steps spot := by
  induction links generalizing place steps spot with
  | zero =>
      rw [travel_eq] at run
      exact leads_of_advance (by intros; contradiction) run
  | succ links ih =>
      rw [travel_eq] at run
      exact leads_of_advance (fun _ _ _ _ chased => ⟨links, rfl, ih chased⟩) run

theorem travel_enter {inside : Listing} (fits : name.utf8ByteSize ≤ nameLimit)
    (held : root.at? (place ++ [name]) = some (.dir inside)) :
    travel root throughLast links place (.into name :: steps) =
      travel root throughLast links (place ++ [name]) steps := by
  rw [travel_eq, advance_into fits, held]

theorem travel_follow {target : String} (fits : name.utf8ByteSize ≤ nameLimit)
    (held : root.at? (place ++ [name]) = some (.leaf (.link target)))
    (inner : steps ≠ [] ∨ throughLast = true) :
    travel root throughLast (links + 1) place (.into name :: steps) =
      travel root throughLast links (if startsAtRoot target then [] else place)
        (Step.all target ++ steps) := by
  have goesOn : ¬(steps = [] ∧ (!throughLast) = true) := by
    intro holds
    obtain ⟨last, stops⟩ := holds
    rcases inner with inner | through
    · exact inner last
    · simp [through] at stops
  rw [travel_eq, advance_into fits, held]
  simp only [if_neg goesOn]
  rfl

theorem Leads.travel (leads : Leads root throughLast links place steps spot) :
    travel root throughLast links place steps = .ok spot := by
  induction leads with
  | arrive => rw [travel_eq]; rfl
  | stay onward ih => rwa [travel_eq] at ih ⊢
  | up onward ih => rwa [travel_eq] at ih ⊢
  | free fits held => rw [travel_eq, advance_into fits, held]; rfl
  | file fits held => rw [travel_eq, advance_into fits, held]; rfl
  | halt fits held last => rw [travel_eq, advance_into fits, held]; simp [last]
  | enter fits held onward ih => rw [travel_enter fits held, ih]
  | follow fits held inner onward ih => rw [travel_follow fits held inner, ih]

theorem travel_eq_ok_iff : travel root throughLast links place steps = .ok spot ↔
    Leads root throughLast links place steps spot :=
  ⟨leads_of_travel, Leads.travel⟩

/-! Resolutions in parts. -/

theorem Leads.ne_adrift (leads : Leads root throughLast links place steps spot) :
    spot ≠ .adrift := by
  induction leads with
  | arrive => simp
  | stay onward ih => exact ih
  | up onward ih => exact ih
  | free fits held => simp
  | file fits held => simp
  | halt fits held last => simp
  | enter fits held onward ih => exact ih
  | follow fits held inner onward ih => exact ih

theorem isDirAt_iff : isDirAt root place ↔ ∃ inside, root.at? place = some (.dir inside) := by
  unfold isDirAt
  split
  · rename_i inside found
    simp [found]
  · rename_i absent
    simp only [Bool.false_eq_true, false_iff, not_exists]
    exact absent

theorem isDirAt_dropLast (here : isDirAt root place) : isDirAt root place.dropLast := by
  obtain ⟨inside, found⟩ := isDirAt_iff.mp here
  by_cases top : place = []
  · simpa [top] using here
  · rw [← List.dropLast_concat_getLast top] at found
    exact isDirAt_iff.mpr (Listing.at?_front found (by simp))

theorem isDirAt_start (target : String) (here : isDirAt root place) :
    isDirAt root (if startsAtRoot target then [] else place) := by
  split
  · rfl
  · exact here

/-- On the way to a directory lie directories and links. -/
theorem Leads.enters {ending : Location}
    (leads : Leads root true links place (.into name :: steps) (.taken ending))
    (dir : isDirAt root ending) :
    (∃ inside, root.at? (place ++ [name]) = some (.dir inside) ∧
      Leads root true links (place ++ [name]) steps (.taken ending)) ∨
      ∃ target, root.at? (place ++ [name]) = some (.leaf (.link target)) := by
  cases leads with
  | file fits held => simp [isDirAt, held] at dir
  | halt fits held last => contradiction
  | enter fits held onward => exact .inl ⟨_, held, onward⟩
  | follow fits held inner onward => exact .inr ⟨_, held⟩

/-- After steps that lead to a directory a resolution goes on from there. -/
theorem Leads.append {middle : Location} (leads : Leads root true links place front (.taken middle))
    (dir : isDirAt root middle) :
    ∃ left ≤ links, ∀ throughLast back, back ≠ [] →
      Disk.travel root throughLast links place (front ++ back) =
        Disk.travel root throughLast left middle back := by
  generalize reached : Spot.taken middle = spot at leads
  induction leads with
  | arrive =>
      cases reached
      exact ⟨_, Nat.le_refl _, fun _ _ _ => rfl⟩
  | stay onward ih =>
      obtain ⟨left, bound, goesOn⟩ := ih reached
      exact ⟨left, bound, fun throughLast back further => by
        rw [← goesOn throughLast back further, travel_eq]; rfl⟩
  | up onward ih =>
      obtain ⟨left, bound, goesOn⟩ := ih reached
      exact ⟨left, bound, fun throughLast back further => by
        rw [← goesOn throughLast back further, travel_eq]; rfl⟩
  | free fits held => contradiction
  | file fits held =>
      cases reached
      simp [isDirAt, held] at dir
  | halt fits held last => contradiction
  | enter fits held onward ih =>
      obtain ⟨left, bound, goesOn⟩ := ih reached
      exact ⟨left, bound, fun throughLast back further => by
        rw [List.cons_append, travel_enter fits held, goesOn throughLast back further]⟩
  | follow fits held inner onward ih =>
      obtain ⟨left, bound, goesOn⟩ := ih reached
      refine ⟨left, Nat.le_succ_of_le bound, fun throughLast back further => ?_⟩
      rw [List.cons_append, travel_follow fits held (.inl (by simp [further])), ← List.append_assoc,
        goesOn throughLast back further]

theorem Leads.leading (leads : Leads root throughLast links place (front ++ back) spot)
    (further : back ≠ []) (here : isDirAt root place) :
    ∃ middle, Leads root true links place front (.taken middle) ∧ isDirAt root middle := by
  -- A link that is followed lengthens the front, so the front changes along the derivation.
  generalize whole : front ++ back = steps at leads
  induction leads generalizing front with
  | arrive => simp [further] at whole
  | stay onward ih =>
      rcases List.append_eq_cons_iff.mp whole with ⟨rfl, -⟩ | ⟨front, rfl, rest⟩
      · exact ⟨_, .arrive, here⟩
      · obtain ⟨middle, first, dir⟩ := ih here rest.symm
        exact ⟨middle, .stay first, dir⟩
  | up onward ih =>
      rcases List.append_eq_cons_iff.mp whole with ⟨rfl, -⟩ | ⟨front, rfl, rest⟩
      · exact ⟨_, .arrive, here⟩
      · obtain ⟨middle, first, dir⟩ := ih (isDirAt_dropLast here) rest.symm
        exact ⟨middle, .up first, dir⟩
  | free | file | halt =>
      rcases List.append_eq_cons_iff.mp whole with ⟨rfl, -⟩ | ⟨front, rfl, rest⟩
      · exact ⟨_, .arrive, here⟩
      · simp [further] at rest
  | enter fits held onward ih =>
      rcases List.append_eq_cons_iff.mp whole with ⟨rfl, -⟩ | ⟨front, rfl, rest⟩
      · exact ⟨_, .arrive, here⟩
      · obtain ⟨middle, first, dir⟩ := ih (isDirAt_iff.mpr ⟨_, held⟩) rest.symm
        exact ⟨middle, .enter fits held first, dir⟩
  | follow fits held inner onward ih =>
      rcases List.append_eq_cons_iff.mp whole with ⟨rfl, -⟩ | ⟨front, rfl, rest⟩
      · exact ⟨_, .arrive, here⟩
      · obtain ⟨middle, first, dir⟩ := ih (isDirAt_start _ here) (by rw [rest, List.append_assoc])
        exact ⟨middle, .follow fits held (.inr rfl) first, dir⟩

/-- Without going through the last link a resolution ends at the same place or at a link. -/
theorem Leads.halting {middle : Location}
    (leads : Leads root true links place steps (.taken middle)) :
    ∃ ending, Leads root false links place steps (.taken ending) ∧
      (ending = middle ∨ ∃ target, root.at? ending = some (.leaf (.link target))) := by
  generalize reached : Spot.taken middle = spot at leads
  induction leads with
  | arrive => cases reached; exact ⟨middle, .arrive, .inl rfl⟩
  | stay onward ih =>
      obtain ⟨ending, halting, kind⟩ := ih reached
      exact ⟨ending, .stay halting, kind⟩
  | up onward ih =>
      obtain ⟨ending, halting, kind⟩ := ih reached
      exact ⟨ending, .up halting, kind⟩
  | free fits held => contradiction
  | file fits held => cases reached; exact ⟨_, .file fits held, .inl rfl⟩
  | halt fits held last => contradiction
  | enter fits held onward ih =>
      obtain ⟨ending, halting, kind⟩ := ih reached
      exact ⟨ending, .enter fits held halting, kind⟩
  | @follow links place name target rest spot fits held inner onward ih =>
      by_cases last : rest = []
      · subst last
        exact ⟨_, .halt fits held rfl, .inr ⟨target, held⟩⟩
      · obtain ⟨ending, halting, kind⟩ := ih reached
        exact ⟨ending, .follow fits held (.inl last) halting, kind⟩

end ManifestSearch.Disk
