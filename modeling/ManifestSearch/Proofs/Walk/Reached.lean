import ManifestSearch.Proofs.Path.Shown
import ManifestSearch.Proofs.Text.Bytes
import ManifestSearch.Proofs.Walk.Depth
import ManifestSearch.Proofs.Walk.Outcome

/-!
What a walk reaches, whatever its start is. From a directory it lists the files that real
directories lead to, none of them skipped, in the order of their segments (`run_complete`). From a
file it lists that file, and from nothing it fails at its start.
-/

namespace ManifestSearch

variable {disk : Disk} {root : Path} {inside : Listing} {skipped : List String} {above : String}
  {names : Location} {left right files : List Path} {front : List String}

/-- What a text names as a directory has entries of the tree, or none if it is a working directory
that was taken away. -/
theorem Disk.listing_of_node {throughLast : Bool} {text : String}
    (found : disk.node throughLast text = .ok (.dir inside)) :
    inside = .nil ∨ ∃ place, disk.root.at? place = some (.dir inside) := by
  unfold Disk.node at found
  split at found
  · contradiction
  · contradiction
  · cases found
    exact .inl rfl
  · rename_i place _
    split at found
    · rename_i held
      cases found
      exact .inr ⟨place, held⟩
    · contradiction

theorem Disk.Sound.listing {throughLast : Bool} {text : String} (sound : disk.Sound)
    (tame : disk.root.EveryName IsTame) (found : disk.node throughLast text = .ok (.dir inside)) :
    inside.Ordered ∧ inside.EveryName IsEntryName ∧ inside.EveryName IsTame := by
  rcases Disk.listing_of_node found with rfl | ⟨place, held⟩
  · exact ⟨trivial, trivial, trivial⟩
  · exact ⟨sound.ordered.at? held, (sound.named.at? held).2 inside rfl,
      (tame.at? held).2 inside rfl⟩

/-! Paths in the order of their segments. -/

/-- Of two paths the first comes earlier, each segment compared by its bytes. -/
def Path.Precedes (left right : Path) : Prop :=
  left.segments.map Glob.encoded < right.segments.map Glob.encoded

theorem Path.Precedes.irrefl (path : Path) : ¬path.Precedes path := List.lt_irrefl _

theorem Path.Precedes.asymm {first second : Path} (precedes : first.Precedes second) :
    ¬second.Precedes first := List.lt_asymm precedes

/-- Two lists in the order of segments are the same if they have the same members. -/
theorem eq_of_precedes (leftOrder : left.Pairwise Path.Precedes)
    (rightOrder : right.Pairwise Path.Precedes) (same : ∀ file, file ∈ left ↔ file ∈ right) :
    left = right := by
  have : Std.Irrefl Path.Precedes := ⟨Path.Precedes.irrefl⟩
  have : Std.Antisymm Path.Precedes := ⟨fun _ _ before after => absurd after before.asymm⟩
  exact leftOrder.eq_of_mem_iff rightOrder same

namespace Walk

/-- The files below a directory are in the order of their segments. -/
theorem filesBelow_precedes (ordered : inside.Ordered)
    (canonical : ∀ names held, inside.at? names = some (.leaf held) →
      Path.ofText (RawText.descend above names) = ⟨RawText.descend above names⟩)
    (segments : ∀ names held, inside.at? names = some (.leaf held) →
      Path.segments ⟨RawText.descend above names⟩ = front ++ names) :
    (filesBelow disk skipped above inside).Pairwise Path.Precedes := by
  rw [filesBelow, listed, List.pairwise_map]
  refine ((Listing.leaves_pairwise ordered).imp_of_mem ?_).filter _
  intro left right leftMember rightMember less
  have leftStands := ((Listing.mem_leaves ordered).mp leftMember).2.1
  have rightStands := ((Listing.mem_leaves ordered).mp rightMember).2.1
  rw [Path.Precedes, canonical _ _ leftStands, canonical _ _ rightStands, segments _ _ leftStands,
    segments _ _ rightStands]
  exact Glob.map_encoded_lt (Listing.append_lt_append less front)

/-- A walk from a directory lists exactly the files that real directories lead to, none of them
skipped, each once and in the order of their segments; only a directory too deep to be opened, where
the walk enters it, ends it with a failure. A walk from a file lists that file, and a walk from
nothing fails at its start. -/
theorem run_complete (sound : disk.Sound) (tame : disk.root.EveryName IsTame)
    (canonical : root.Canonical) (absolute : root.isAbsolute) (skipped : List String) :
    (∀ inside, disk.node true root.text = .ok (.dir inside) →
      (Openable skipped root.text inside → ∃ files, run ⟨root, skipped⟩ disk = ⟨files, none⟩ ∧
        (∀ file, file ∈ files ↔ ∃ names, HasFile disk root.text inside names ∧
          (∀ name ∈ names.dropLast, name ∉ skipped) ∧ file = ⟨RawText.descend root.text names⟩) ∧
        files.Pairwise Path.Precedes) ∧
      (¬Openable skipped root.text inside → ∃ names ∈ inside.dirs skipped,
        Disk.pathLimit ≤ (RawText.descend root.text names).utf8ByteSize ∧
        (run ⟨root, skipped⟩ disk).failure =
          some (.tree (RawText.descend root.text names) .nameTooLong))) ∧
    (disk.isFile root.text → run ⟨root, skipped⟩ disk = ⟨[root], none⟩) ∧
    (¬disk.found root.text → ∃ fault,
      run ⟨root, skipped⟩ disk = ⟨[], some (.tree root.text fault)⟩) := by
  refine ⟨fun inside found => ?_, fun named => ?_, run_of_missing ⟨root, skipped⟩⟩
  · have notDot : root.text ≠ "." := by
      intro dot
      simp [Path.isAbsolute, dot, Path.isDrive] at absolute
    obtain ⟨start, segments, shows, free⟩ := canonical.shows notDot
    obtain ⟨ordered, named, tameBelow⟩ := sound.listing tame found
    have plain {names node} (stands : inside.at? names = some node) :
        ∀ name ∈ names, Path.IsSegment name.toList :=
      fun name member => ((named.at? stands).1 name member).segment
    have clean (names held) (stands : inside.at? names = some (.leaf held)) :
        Path.ofText (RawText.descend root.text names) = ⟨RawText.descend root.text names⟩ :=
      shows.ofText_descend free (plain stands) (tameBelow.at? stands).1
    have walked : run ⟨root, skipped⟩ disk = below disk skipped root.text inside :=
      run_of_node found
    constructor
    · intro short
      refine ⟨_, walked.trans (below_eq short), fun file => ?_, ?_⟩
      · exact mem_filesBelow_of_canonical ordered clean
      · exact filesBelow_precedes ordered clean fun names held stands =>
          shows.segments_descend (plain stands)
    · intro long
      rw [walked]
      exact below_failure long
  · unfold Disk.isFile at named
    split at named
    · rename_i content found
      rw [run_of_leaf ⟨root, skipped⟩ found]
      exact congrArg (fun file => Found.mk [file] none) canonical
    · contradiction

theorem run_complete_in_sample :
    (∃ files, run ⟨⟨"/w"⟩, ["node_modules"]⟩ sampleDisk = ⟨files, none⟩ ∧
      (∀ file, file ∈ files ↔ ∃ names, HasFile sampleDisk "/w" sampleListing names ∧
        (∀ name ∈ names.dropLast, name ∉ ["node_modules"]) ∧
        file = ⟨RawText.descend "/w" names⟩) ∧
      files.Pairwise Path.Precedes) ∧
    run ⟨⟨"/w/tsconfig.json"⟩, []⟩ sampleDisk = ⟨[⟨"/w/tsconfig.json"⟩], none⟩ ∧
    ∃ fault, run ⟨⟨"/gone"⟩, []⟩ sampleDisk = ⟨[], some (.tree "/gone" fault)⟩ := by
  have sound : sampleDisk.Sound := site_sampleDisk.sound
  have tame : sampleDisk.root.EveryName IsTame := by decide +kernel
  refine ⟨?_, ?_, ?_⟩
  · exact ((run_complete sound tame (by decide) (by decide) _).1 sampleListing
      site_sampleDisk.found).1 (by decide +kernel)
  · exact (run_complete sound tame (by decide) (by decide) _).2.1 (by decide +kernel)
  · exact (run_complete sound tame (by decide) (by decide) _).2.2 (by decide +kernel)

example : run ⟨⟨"/w"⟩, ["node_modules"]⟩ sampleDisk =
    ⟨[⟨"/w/src/app.ts"⟩, ⟨"/w/src/tsconfig.json"⟩, ⟨"/w/tsconfig.json"⟩], none⟩ := by
  decide +kernel

/-- A walk that comes upon a directory too deep to be opened fails, whatever lies beside it. -/
theorem run_fails_in_depth :
    deepDisk.Sound ∧ deepDisk.root.EveryName IsTame ∧ Path.Canonical ⟨"/w"⟩ ∧
      Path.isAbsolute ⟨"/w"⟩ ∧ deepDisk.node true "/w" = .ok (.dir deepListing) ∧
      HasFile deepDisk "/w" deepListing ["tsconfig.json"] ∧
      (run ⟨⟨"/w"⟩, []⟩ deepDisk).failure ≠ none := by
  have long : ¬Openable [] "/w" deepListing := not_openable_deepListing (by simp)
  refine ⟨site_deepDisk.sound, ⟨by decide, tame_deepListing, trivial⟩, by decide, by decide,
    site_deepDisk.found, ⟨.file "", rfl, rfl⟩, ?_⟩
  obtain ⟨names, -, -, failed⟩ := @below_failure deepDisk _ _ _ long
  have walked : run ⟨⟨"/w"⟩, []⟩ deepDisk = _ := run_of_node site_deepDisk.found
  rw [walked, failed]
  simp

end Walk

end ManifestSearch
