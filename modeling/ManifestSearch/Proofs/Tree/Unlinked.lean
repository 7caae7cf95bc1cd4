import ManifestSearch.Proofs.Tree.Settling
import ManifestSearch.Proofs.Walk.Depth

/-!
Settling a text where there are no links. In a tree without links the steps of a text lead to the
place whose names are the segments that the text settles to, as long as no `..` comes to stand
behind a drive, which settling does not take back. So a text and its canonical path name the same
file or directory, if the names on the way to the working directory can be spelled and the path is
not too long to be resolved.
-/

namespace ManifestSearch

open ManifestSearch.Path (Spelled IsSegment keep isDrive)

namespace Listing

/-- No entry is a link, here or in a directory below. -/
def Unlinked : Listing → Prop
  | nil => True
  | leaf _ (.file _) rest => rest.Unlinked
  | leaf _ (.link _) _ => False
  | dir _ inside rest => inside.Unlinked ∧ rest.Unlinked

instance decidableUnlinked : (listing : Listing) → Decidable listing.Unlinked
  | nil => .isTrue trivial
  | leaf _ (.file _) rest => decidableUnlinked rest
  | leaf _ (.link _) _ => .isFalse id
  | dir _ inside rest =>
      have := decidableUnlinked inside
      have := decidableUnlinked rest
      inferInstanceAs (Decidable (_ ∧ _))

variable {listing inside : Listing} {name target : String} {node : Node} {location : Location}

theorem Unlinked.find? (unlinked : listing.Unlinked) (found : listing.find? name = some node) :
    (∀ target, node ≠ .leaf (.link target)) ∧ ∀ inside, node = .dir inside → inside.Unlinked := by
  induction listing with
  | nil => simp [Listing.find?] at found
  | leaf other held rest ih =>
      cases held with
      | link target => exact unlinked.elim
      | file content =>
          by_cases same : name = other
          · simp only [Listing.find?, if_pos same, Option.some.injEq] at found
            subst found
            exact ⟨by simp, by simp⟩
          · simp only [Listing.find?, if_neg same] at found
            exact ih unlinked found
  | dir other below rest _ ih =>
      by_cases same : name = other
      · simp only [Listing.find?, if_pos same, Option.some.injEq] at found
        subst found
        exact ⟨by simp, fun inside equal => by cases equal; exact unlinked.1⟩
      · simp only [Listing.find?, if_neg same] at found
        exact ih unlinked.2 found

theorem Unlinked.at? (unlinked : listing.Unlinked) (target : String) :
    listing.at? location ≠ some (.leaf (.link target)) := by
  induction location generalizing listing with
  | nil => simp [Listing.at?]
  | cons name location ih =>
      rw [at?_cons]
      cases found : listing.find? name with
      | none => simp
      | some node =>
          obtain ⟨noLink, deeper⟩ := unlinked.find? found
          cases node with
          | leaf held =>
              intro link
              simp only [Option.bind_some, Option.ite_none_right_eq_some, Option.some.injEq] at link
              exact noLink target link.2
          | dir inside => exact ih (deeper inside rfl)

theorem Unlinked.nested (unlinked : inside.Unlinked) (depth : Nat) :
    (nested name inside depth).Unlinked := by
  induction depth with
  | zero => exact unlinked
  | succ depth ih => exact ⟨ih, trivial⟩

end Listing

namespace Disk

variable {disk : Disk} {base : Path} {text : String} {root : Listing} {links : Nat}
  {place ending : Location} {kept pieces : List (List Char)} {back : List Step}

/-- No `..` comes to stand behind a segment that is spelled like a drive. -/
def Undriven : List (List Char) → List (List Char) → Prop
  | _, [] => True
  | kept, piece :: pieces =>
      (piece = ['.', '.'] → ∀ last ∈ kept.head?, isDrive last = false) ∧
        Undriven (keep kept piece) pieces

instance decidableUndriven : (kept pieces : List (List Char)) → Decidable (Undriven kept pieces)
  | _, [] => .isTrue trivial
  | kept, piece :: pieces =>
      have := decidableUndriven (keep kept piece) pieces
      inferInstanceAs (Decidable (_ ∧ _))

theorem segmentsOf_concat (place : Location) (piece : List Char) :
    segmentsOf (place ++ [String.ofList piece]) = segmentsOf place ++ [piece] := by
  simp [segmentsOf]

/-- Without links, steps lead to the place that their pieces settle to. -/
theorem Leads.settled (unlinked : root.Unlinked) (here : isDirAt root place)
    (stands : segmentsOf place = kept.reverse) (undriven : Undriven kept pieces)
    (trailing : back = [] ∨ back = [.stay])
    (leads : Leads root true links place
      ((pieces.filter (· ≠ [])).map Step.ofPiece ++ back) (.taken ending)) :
    segmentsOf ending = (pieces.foldl keep kept).reverse ∧
      ∃ node, root.at? ending = some node := by
  -- The place reached so far is spelled by the segments kept so far.
  induction pieces generalizing kept place with
  | nil =>
      obtain ⟨inside, held⟩ := isDirAt_iff.mp here
      rcases trailing with rfl | rfl
      · cases leads with
        | arrive => exact ⟨stands, _, held⟩
      · cases leads with
        | stay onward =>
            cases onward with
            | arrive => exact ⟨stands, _, held⟩
  | cons piece pieces ih =>
      obtain ⟨retaken, later⟩ := undriven
      rw [List.foldl_cons]
      by_cases empty : piece = []
      · subst empty
        exact ih here stands later leads
      rw [List.filter_cons_of_pos (by simp [empty]), List.map_cons, List.cons_append] at leads
      by_cases dot : piece = ['.']
      · subst dot
        cases leads with
        | stay onward => exact ih here stands later onward
      by_cases dots : piece = ['.', '.']
      · subst dots
        cases leads with
        | up onward =>
            refine ih (isDirAt_dropLast here) ?_ later onward
            cases kept with
            | nil => simp_all [segmentsOf, keep]
            | cons last before =>
                have drops : keep (last :: before) ['.', '.'] = before := by
                  simp [keep, retaken rfl last rfl]
                rw [drops, segmentsOf, List.map_dropLast, ← segmentsOf, stands]
                simp
      have named : Step.ofPiece piece = .into (String.ofList piece) := by
        simp [Step.ofPiece, dot, dots]
      have entered : keep kept piece = piece :: kept := by simp [keep, empty, dot, dots]
      have longer : segmentsOf (place ++ [String.ofList piece]) = (piece :: kept).reverse := by
        rw [segmentsOf_concat, stands, List.reverse_cons]
      rw [named] at leads
      rw [entered] at later ⊢
      generalize rest : (pieces.filter (· ≠ [])).map Step.ofPiece ++ back = steps at leads
      cases leads with
      | file fits held =>
          have last : pieces.filter (· ≠ []) = [] := by
            simpa using (List.append_eq_nil_iff.mp rest).1
          rw [← Path.foldl_keep_filter, last]
          exact ⟨longer, _, held⟩
      | halt fits held stops => contradiction
      | enter fits held onward =>
          subst rest
          exact ih (isDirAt_iff.mpr ⟨_, held⟩) longer later onward
      | follow fits held inner onward => exact absurd held (unlinked.at? _)

theorem all_eq (text : String) :
    ∃ back, (back = [] ∨ back = [.stay]) ∧ Step.all text = Step.ofText text ++ back := by
  rw [Step.all]
  split
  · exact ⟨[.stay], .inr rfl, rfl⟩
  · exact ⟨[], .inl rfl, (List.append_nil _).symm⟩

theorem leads_of_reach (stays : disk.adrift = false)
    (reached : disk.reach true text = .ok (.taken place)) :
    text ≠ "" ∧ '\x00' ∉ text.toList ∧ Leads disk.root true linkLimit
      (if startsAtRoot text then [] else disk.here) (Step.all text) (.taken place) := by
  rw [reach, reachBy] at reached
  split at reached
  · contradiction
  rename_i noNul
  split at reached
  · contradiction
  rename_i occupied
  split at reached
  · contradiction
  refine ⟨occupied, by simpa using noNul, ?_⟩
  split at reached
  · rename_i rooted
    rw [if_pos rooted]
    exact leads_of_travel reached
  · rename_i relative
    rw [if_neg (by simp [stays]), depart] at reached
    split at reached
    · rw [if_neg relative]
      exact leads_of_travel reached
    · contradiction

theorem not_mem_fromHere {char : Char} (differs : char ≠ '/') (free : char ∉ text.toList)
    (tame : ¬startsAtRoot text → ∀ name ∈ disk.here, char ∉ name.toList) :
    char ∉ disk.fromHere text := by
  have body : char ∉ Text.joined '/'
      ((Text.pieces '/' text.toList).filter fun piece => piece ≠ [] ∧ piece ≠ ['.']) := by
    intro member
    rcases Text.mem_joined member with slash | ⟨piece, inPieces, inside⟩
    · exact differs slash
    · exact free (Text.mem_of_mem_pieces (List.mem_filter.mp inPieces).1 inside)
  simp only [fromHere]
  split
  · simp only [List.mem_cons, differs, false_or]
    exact body
  · simp only [List.mem_cons, differs, false_or]
    exact body
  · rename_i relative
    have notRooted : ¬startsAtRoot text := by
      intro rooted
      exact Path.start_ne_relative (by simpa [startsAtRoot] using rooted) relative
    have standing : char ∉ locationText disk.here := by
      simp only [locationText, List.mem_cons, differs, false_or]
      intro member
      rcases Text.mem_joined member with slash | ⟨segment, inHere, inside⟩
      · exact differs slash
      · obtain ⟨name, member, rfl⟩ := List.mem_map.mp inHere
        exact tame notRooted name member inside
    split
    · simp only [List.mem_append, standing, body, or_self, not_false_eq_true]
    · split
      · exact standing
      · simp only [List.mem_append, List.mem_cons, standing, differs, body, or_self,
          not_false_eq_true]

/-- In a tree without links, the canonical path of a text that names a file or a directory is
resolved to the same one. -/
theorem reach_absolute_unlinked (sound : disk.Sound) (unlinked : disk.root.Unlinked)
    (stays : disk.adrift = false) (here : isDirAt disk.root disk.here) (free : '\\' ∉ text.toList)
    (reached : disk.reach true text = .ok (.taken place))
    (tame : ¬startsAtRoot text → ∀ name ∈ disk.here, IsTame name)
    (undriven : Undriven (disk.standing text).reverse (Text.pieces '/' text.toList)) :
    (∃ node, disk.root.at? place = some node) ∧
      ∃ base, disk.absolute text = .ok base ∧ (base.text.utf8ByteSize < pathLimit →
        disk.reach true base.text = .ok (.taken place)) := by
  obtain ⟨occupied, noNul, leads⟩ := leads_of_reach stays reached
  obtain ⟨back, trailing, whole⟩ := all_eq text
  have stands : segmentsOf (if startsAtRoot text then [] else disk.here) =
      (disk.standing text).reverse.reverse := by
    rw [List.reverse_reverse, standing]
    split <;> rfl
  have standsInDir : isDirAt disk.root (if startsAtRoot text then [] else disk.here) :=
    isDirAt_start text here
  rw [whole] at leads
  obtain ⟨settled, node, held⟩ := leads.settled unlinked standsInDir stands undriven trailing
  have read : disk.absolute text = .ok (Path.ofText (String.ofList (disk.fromHere text))) := by
    rw [absolute, if_neg occupied, if_pos (.inr (by simp [stays, here]))]
  refine ⟨⟨node, held⟩, _, read, fun short => ?_⟩
  obtain ⟨start, spelling⟩ := absolute_spelled sound read (not_mem_fromHere (by decide) free tame)
  have valid := noNul_of_absolute sound read noNul spelling
  rw [← settled] at spelling
  rw [reach_of_startsAtRoot spelling.startsAtRoot valid short, Step.all_of_spelled spelling,
    Step.ofSegments_segmentsOf]
  exact travel_names (sound.named.at? held).1 rfl held
    fun _ target same => unlinked.at? target (same ▸ held)

def driveListing : Listing :=
  .dir "C:" (.dir "lib" (.leaf "a.json" (.file "") .nil) .nil) (.dir "src" .nil .nil)

def driveDisk : Disk := ⟨.dir "w" driveListing .nil, ["w", "src"], false⟩

theorem reach_absolute_unlinked_up :
    (∃ node, driveDisk.root.at? ["w", "C:", "lib", "a.json"] = some node) ∧
      ∃ base, driveDisk.absolute ".././/C:/lib/../lib/a.json" = .ok base ∧
        (base.text.utf8ByteSize < pathLimit →
          driveDisk.reach true base.text = .ok (.taken ["w", "C:", "lib", "a.json"])) :=
  reach_absolute_unlinked (by decide +kernel) (by decide +kernel) rfl (by decide +kernel)
    (by decide +kernel) (by decide +kernel) (by decide +kernel) (by decide +kernel)

/-- Behind a drive, `..` leads to the directory that holds it, and the canonical path stays. -/
example : driveDisk.reach true "../C:/.." = .ok (.taken ["w"]) ∧
    driveDisk.absolute "../C:/.." = .ok ⟨"/w/C:"⟩ := by
  decide +kernel

/-! Working directories without a canonical path of their own. -/

theorem reach_here (stays : disk.adrift = false) (here : isDirAt disk.root disk.here) :
    disk.reach true "." = .ok (.taken disk.here) := by
  have step : disk.reach true "." = depart disk.root true disk.here [.stay] := by
    rw [reach, reachBy, if_neg (by decide), if_neg (by decide), if_neg (by decide),
      if_neg (by decide), if_neg (by simp [stays])]
    rfl
  rw [step, depart, if_pos here, travel_stay]
  exact Leads.arrive.travel

theorem length_le_size {names : Location} {start : Path.Start}
    (spelling : base.Spelled start (segmentsOf names)) :
    names.length ≤ base.text.utf8ByteSize := by
  obtain ⟨top, root⟩ : ∃ top : Path, top.Spelled start [] :=
    ⟨⟨String.ofList (Path.spelled start [])⟩, spelling.atRoot, by simp, String.toList_ofList⟩
  have plain : ∀ name ∈ names, IsSegment name.toList := fun name member =>
    spelling.plain _ (List.mem_map_of_mem member)
  have whole := (root.descend plain).unique spelling
  have size := RawText.le_size_descend root.text_ne_empty plain
  rw [← whole]
  exact Nat.le_trans (Nat.le_add_left _ _) size

/-- A working directory is not resolved by its path if that is too long. -/
theorem absolute_too_deep (sound : disk.Sound) (tame : ∀ name ∈ disk.here, IsTame name)
    (deep : pathLimit ≤ disk.here.length) :
    ¬∃ base, disk.absolute "." = .ok base ∧ disk.reach true base.text = .ok (.taken place) := by
  intro holds
  obtain ⟨base, read, reached⟩ := holds
  have free : '\\' ∉ disk.fromHere "." := not_mem_fromHere (by decide) (by decide) fun _ => tame
  obtain ⟨start, spelling⟩ := absolute_spelled sound read free
  have segments : ((Text.pieces '/' ".".toList).foldl keep (disk.standing ".").reverse).reverse =
      segmentsOf disk.here := by
    have kept : (Text.pieces '/' ".".toList).foldl keep (disk.standing ".").reverse =
        (disk.standing ".").reverse := rfl
    rw [kept, List.reverse_reverse]
    rfl
  rw [segments] at spelling
  have short := (reach_ok spelling.startsAtRoot reached).2.1
  have long := length_le_size spelling
  omega

def backslashDisk : Disk := ⟨.dir "a\\b" .nil .nil, ["a\\b"], false⟩

def deepHereDisk : Disk := { deepDisk with here := "w" :: List.replicate (pathLimit + 1) "d" }

theorem isDirAt_deepHereDisk : isDirAt deepHereDisk.root deepHereDisk.here := by
  have below (depth : Nat) :
      (Listing.nested "d" .nil depth).at? (List.replicate depth "d") = some (.dir .nil) := by
    induction depth with
    | zero => rfl
    | succ depth ih =>
        simpa [Listing.nested, List.replicate_succ, Listing.at?, Listing.find?] using ih
  apply isDirAt_iff.mpr
  refine ⟨.nil, ?_⟩
  have last := below pathLimit
  simpa [deepHereDisk, deepDisk, deepListing, List.replicate_succ, Listing.at?, Listing.find?]
    using last

/-- A working directory with a backslash in its name, or one that is too deep, has no canonical
path that is resolved to it. -/
theorem absolute_misses :
    (backslashDisk.Sound ∧ backslashDisk.root.Unlinked ∧ backslashDisk.adrift = false ∧
      isDirAt backslashDisk.root backslashDisk.here ∧
      backslashDisk.reach true "." = .ok (.taken backslashDisk.here) ∧
      ¬∃ base, backslashDisk.absolute "." = .ok base ∧
        backslashDisk.reach true base.text = .ok (.taken backslashDisk.here)) ∧
    deepHereDisk.Sound ∧ deepHereDisk.root.Unlinked ∧ deepHereDisk.adrift = false ∧
      isDirAt deepHereDisk.root deepHereDisk.here ∧
      deepHereDisk.reach true "." = .ok (.taken deepHereDisk.here) ∧
      ¬∃ base, deepHereDisk.absolute "." = .ok base ∧
        deepHereDisk.reach true base.text = .ok (.taken deepHereDisk.here) := by
  have here := isDirAt_deepHereDisk
  have sound : deepHereDisk.Sound :=
    ⟨Walk.site_deepDisk.sound.ordered, Walk.site_deepDisk.sound.named⟩
  have none : Listing.nil.Unlinked := trivial
  refine ⟨⟨by decide +kernel, by decide +kernel, rfl, by decide +kernel, by decide +kernel, ?_⟩,
    sound, ⟨⟨none.nested _, none⟩, none⟩, rfl, here, reach_here rfl here,
    absolute_too_deep sound ?_ ?_⟩
  · intro holds
    obtain ⟨base, read, reached⟩ := holds
    have path : backslashDisk.absolute "." = .ok ⟨"/a/b"⟩ := by decide +kernel
    cases path.symm.trans read
    have lost : backslashDisk.reach true "/a/b" = .error .notFound := by decide +kernel
    rw [lost] at reached
    cases reached
  · intro name member
    rcases List.mem_cons.mp member with rfl | member
    · decide
    · rw [List.eq_of_mem_replicate member]
      decide
  · simp only [deepHereDisk, List.length_cons, List.length_replicate]
    omega

end Disk

end ManifestSearch
