import ManifestSearch.Proofs.Strategy.Synthesis
import ManifestSearch.Proofs.Walk.Regrown

/-!
The files that are selected before and after a file was written. The second list goes on from the
first: it has the same files in the same order, and beside them at most the new file and links that
lead to a file only now. The lists are the same exactly if none of these is selected (`Unnoticed`).
-/

namespace ManifestSearch

theorem Listing.eq_nil_of_at?_leaf {listing : Listing} {top names : Location} {held : Leaf} {node : Node}
    (leaf : listing.at? top = some (.leaf held)) (found : listing.at? (top ++ names) = some node) :
    names = [] := by
  by_contra further
  obtain ⟨inside, dir⟩ := at?_front found further
  simp [leaf] at dir

namespace Synthesis

variable {synthesis : Synthesis} {base : Path} {disk before after : Disk} {inside grown : Listing}
  {held : Leaf} {listed relisted : List Path} {text content : String} {top place names : Location}

/-- Whether a file below the base is listed: it is in no directory that is skipped, and its path is
selected. -/
def Takes (synthesis : Synthesis) (base : Path) (names : Location) : Prop :=
  (∀ name ∈ names.dropLast, name ∉ synthesis.selector.skippedDirs) ∧
    synthesis.selector.selects (Path.ofText (RawText.descend base.text names))

/-- Nothing is listed that came to be a file by writing one at `place`; `top` is where the base is. -/
structure Unnoticed (synthesis : Synthesis) (base : Path) (before after : Disk)
    (top place : Location) : Prop where
  file : ∀ names, place = top ++ names → ¬synthesis.Takes base names
  links : ∀ names target, before.root.at? (top ++ names) = some (.leaf (.link target)) →
    ¬before.isFile (RawText.descend base.text names) →
    after.isFile (RawText.descend base.text names) → ¬synthesis.Takes base names

/-! A base that is a file. -/

theorem selected_of_leaf (followed : disk.node true base.text = .ok (.leaf held)) :
    synthesis.selected disk base =
      .ok ([Path.ofText base.text].filter synthesis.selector.selects) := by
  rw [selected, Walk.files_of_leaf ⟨base, synthesis.selector.skippedDirs⟩ followed]
  rfl

/-- There is nothing below a file, and a link at its place leads to no file. -/
theorem unnoticed_of_leaf (wrote : Disk.Wrote before after text content place)
    (reached : after.reach true base.text = .ok (.taken top))
    (stands : before.root.at? top = some (.leaf held)) :
    synthesis.Unnoticed base before after top place := by
  have still := wrote.grows.leaf top held stands
  constructor
  · rintro names rfl takes
    have alone := Listing.eq_nil_of_at?_leaf still wrote.placed
    subst alone
    have missing := wrote.missing
    rw [List.append_nil, stands] at missing
    contradiction
  · intro names target link dangling leads takes
    have alone := Listing.eq_nil_of_at?_leaf stands link
    subst alone
    rw [List.append_nil, stands] at link
    cases link
    simp [Disk.isFile, RawText.descend, Disk.node_of_reach reached still] at leads

/-! A base that is a directory. -/

theorem selected_of_dir (rooted : startsAtRoot base.text)
    (found : disk.node true base.text = .ok (.dir inside))
    (chosen : synthesis.selected disk base = .ok listed) :
    listed = (Walk.picked disk synthesis.selector.selects synthesis.selector.skippedDirs base.text
      inside).map fun entry => Path.ofText (RawText.descend base.text entry.1) := by
  exact (Walk.files_map_ok rooted found chosen).trans (Walk.filter_filesBelow_eq disk)

/-- What is picked anew is the new file, or a link that leads to a file only since then. -/
theorem picked_subset_iff (wrote : Disk.Wrote before after text content place)
    (ordered : before.root.Ordered) (stands : before.root.at? top = some (.dir inside))
    (still : after.root.at? top = some (.dir grown)) :
    Walk.picked after synthesis.selector.selects synthesis.selector.skippedDirs base.text grown ⊆
        Walk.picked before synthesis.selector.selects synthesis.selector.skippedDirs base.text
          inside ↔
      synthesis.Unnoticed base before after top place := by
  have insideOrdered := ordered.at? stands
  have grownOrdered := (wrote.ordered ordered).at? still
  have above (names : Location) : before.root.at? (top ++ names) = inside.at? names :=
    Listing.at?_append stands names
  have aboveGrown (names : Location) : after.root.at? (top ++ names) = grown.at? names :=
    Listing.at?_append still names
  constructor
  · intro nothingNew
    constructor
    · rintro names rfl ⟨outside, chosen⟩
      have placed := (aboveGrown names).symm.trans wrote.placed
      have member := nothingNew ((Walk.mem_picked grownOrdered).mpr
        ⟨Listing.ne_nil_of_at?_leaf placed, placed, outside, rfl, chosen⟩)
      have stood := (above names).trans ((Walk.mem_picked insideOrdered).mp member).2.1
      rw [wrote.missing] at stood
      contradiction
    · rintro names target link dangling leads ⟨outside, chosen⟩
      have linked := (aboveGrown names).symm.trans (wrote.grows.leaf _ _ link)
      have member := nothingNew ((Walk.mem_picked grownOrdered).mpr
        ⟨Listing.ne_nil_of_at?_leaf linked, linked, outside, leads, chosen⟩)
      exact dangling ((Walk.mem_picked insideOrdered).mp member).2.2.2.1
  · intro unnoticed entry member
    obtain ⟨names, held⟩ := entry
    obtain ⟨occupied, found, outside, counted, chosen⟩ := (Walk.mem_picked grownOrdered).mp member
    rcases wrote.leaves _ _ ((aboveGrown names).trans found) with stood | new
    · have counts : Walk.counts before (RawText.descend base.text names) held := by
        cases held with
        | file content => rfl
        | link target =>
            by_contra dangling
            exact unnoticed.links names target stood dangling counted ⟨outside, chosen⟩
      exact (Walk.mem_picked insideOrdered).mpr
        ⟨occupied, (above names).symm.trans stood, outside, counts, chosen⟩
    · exact absurd ⟨outside, chosen⟩ (unnoticed.file names new.symm)

theorem node_of_selected (chosen : synthesis.selected disk base = .ok listed) :
    ∃ node, disk.node true base.text = .ok node := by
  rw [selected] at chosen
  cases walked : Walk.files ⟨base, synthesis.selector.skippedDirs⟩ disk with
  | error failure => simp [walked, Except.map] at chosen
  | ok all => exact Walk.node_of_files walked

/-- Two listings of one base with a file written in between. -/
theorem relisted_iff (wrote : Disk.Wrote before after text content place)
    (rooted : startsAtRoot base.text) (ordered : before.root.Ordered)
    (first : synthesis.selected before base = .ok listed)
    (second : synthesis.selected after base = .ok relisted) :
    ∃ top, before.reach true base.text = .ok (.taken top) ∧ listed.Sublist relisted ∧
      (listed = relisted ↔ synthesis.Unnoticed base before after top place) := by
  obtain ⟨node, found⟩ := node_of_selected first
  obtain ⟨top, reached, stands⟩ := Disk.node_ok rooted found
  have again := Disk.reach_grows rooted wrote.grows reached
  refine ⟨top, reached, ?_⟩
  cases node with
  | leaf held =>
      have still := Disk.node_of_reach again (wrote.grows.leaf top held stands)
      have same := (selected_of_leaf found).symm.trans first
      cases same.symm.trans ((selected_of_leaf still).symm.trans second)
      exact ⟨.refl _, iff_of_true rfl (unnoticed_of_leaf wrote again stands)⟩
  | dir inside =>
      obtain ⟨grown, still⟩ := wrote.grows.dir top inside stands
      have insideOrdered := ordered.at? stands
      have grownOrdered := (wrote.ordered ordered).at? still
      have smaller : (Walk.picked before synthesis.selector.selects synthesis.selector.skippedDirs
          base.text inside).Sublist (Walk.picked after synthesis.selector.selects
            synthesis.selector.skippedDirs base.text grown) :=
        Walk.picked_sublist rooted wrote.grows (wrote.grows.below stands still) insideOrdered
          grownOrdered
      obtain rfl := selected_of_dir rooted found first
      obtain rfl := selected_of_dir rooted (Disk.node_of_reach again still) second
      refine ⟨smaller.map _, Iff.trans ?_ (picked_subset_iff wrote ordered stands still)⟩
      refine Iff.trans ?_ (Walk.picked_eq_iff smaller insideOrdered grownOrdered)
      -- Two names may give one path, so the lists are compared by their lengths.
      constructor
      · intro same
        exact smaller.eq_of_length (by simpa using congrArg List.length same)
      · exact congrArg _

end Synthesis

end ManifestSearch
