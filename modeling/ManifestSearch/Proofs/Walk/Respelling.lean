import ManifestSearch.Proofs.Path.Canonical
import ManifestSearch.Proofs.Walk.Site

/-!
How a listed file is spelled where names have backslashes in them. Its path is read again as a text,
in which a backslash separates names too, so the path may end up elsewhere. It stands for a file
below the base only if what is left of the names goes on from the base and leads to a file, and the
path is short enough to be opened.
-/

namespace ManifestSearch

open ManifestSearch.Path (Spelled IsSegment Start)

namespace Path

variable {path base : Path} {start : Start} {segments more parts : List (List Char)}
  {text : List Char}

theorem pieces_slashed (free : '/' ∉ text) :
    Text.pieces '/' (slashed text) = Text.pieces '\\' text := by
  induction text with
  | nil => rfl
  | cons char text ih =>
      simp only [List.mem_cons, not_or] at free
      have rest : Text.pieces '/' (List.map (fun char => if char = '\\' then '/' else char) text) =
          Text.pieces '\\' text := ih free.2
      by_cases backslash : char = '\\'
      · simp [slashed, Text.pieces, backslash, rest]
      · simp [slashed, Text.pieces, backslash, rest, Ne.symm free.1]

theorem slashed_append (front back : List Char) :
    slashed (front ++ back) = slashed front ++ slashed back :=
  List.map_append

theorem pieces_slashed_joined (occupied : parts ≠ []) (free : ∀ part ∈ parts, '/' ∉ part) :
    Text.pieces '/' (slashed (Text.joined '/' parts)) = parts.flatMap (Text.pieces '\\') := by
  induction parts with
  | nil => contradiction
  | cons part parts ih =>
      have first := pieces_slashed (free part (by simp))
      by_cases alone : parts = []
      · subst alone
        simp [Text.joined, first]
      · have others := ih alone fun other member => free other (List.mem_cons_of_mem part member)
        rw [Text.joined_cons alone, slashed_append]
        have between : slashed ('/' :: Text.joined '/' parts) =
            '/' :: slashed (Text.joined '/' parts) := rfl
        rw [between, Text.pieces_append, first, others, List.flatMap_cons]

/-- What is left of the segments of a spelled path when backslashes separate too. -/
theorem settled_slashed (atRoot : start ≠ .relative) (free : ∀ part ∈ parts, '/' ∉ part) :
    settled (Text.pieces '/' (slashed (spelled start parts))) =
      settled (parts.flatMap (Text.pieces '\\')) := by
  have body : settled (Text.pieces '/' (slashed (Text.joined '/' parts))) =
      settled (parts.flatMap (Text.pieces '\\')) := by
    by_cases none : parts = []
    · subst none
      rfl
    · rw [pieces_slashed_joined none free]
  rw [← body]
  cases start with
  | relative => contradiction
  | rooted => simp [spelled, slashed, Text.pieces, settled, keep]
  | network => simp [spelled, slashed, Text.pieces, settled, keep]

theorem start_slashed_spelled (atRoot : start ≠ .relative) (occupied : segments ≠ [])
    (plain : ∀ segment ∈ segments, IsSegment segment) (free : ∀ segment ∈ segments, '\\' ∉ segment) :
    Path.start (slashed (spelled start (segments ++ more))) = start := by
  have front : slashed (spelled start segments) = spelled start segments :=
    slashed_of_not_mem (not_mem_spelled (by decide) atRoot free)
  by_cases none : more = []
  · rw [none, List.append_nil, front]
    exact start_spelled atRoot plain
  · rw [spelled_append atRoot occupied none, slashed_append, front]
    exact start_spelled_append atRoot occupied plain _

end Path

namespace Walk

variable {disk : Disk} {base : Path} {inside : Listing} {names : Location} {node : Node}
  {held : Leaf}

/-- The segments that are left of a place below a directory when backslashes separate too. -/
def respelled (base : Path) (names : Location) : Location :=
  (Path.settled ((base.segments ++ names).flatMap fun name =>
    Text.pieces '\\' name.toList)).map String.ofList

structure Stands (disk : Disk) (base file : Path) : Prop where
  below : (file.relativeTo? base).isSome
  isFile : disk.isFile file.text

instance (disk : Disk) (base file : Path) : Decidable (Stands disk base file) :=
  decidable_of_iff ((file.relativeTo? base).isSome ∧ disk.isFile file.text)
    ⟨fun ⟨below, isFile⟩ => ⟨below, isFile⟩, fun standing => ⟨standing.below, standing.isFile⟩⟩

namespace Site

theorem spelled_listed (site : Site disk base inside) (held : inside.at? names = some node) :
    ∃ start segments other parts, base.Spelled start segments ∧
      (Path.ofText (RawText.descend base.text names)).Spelled other parts ∧
      parts.map String.ofList = respelled base names ∧ (segments ≠ [] → other = start) := by
  obtain ⟨start, segments, spelling, free⟩ := site.grounded.spelled
  have longer := spelling.descend (site.plain held)
  have noSlash (part : List Char) (member : part ∈ segments ++ segmentsOf names) : '/' ∉ part :=
    (longer.plain part member).noSlash
  have rooted : (Path.slashed (RawText.descend base.text names).toList).head? = some '/' := by
    have head : (RawText.descend base.text names).toList.head? = some '/' := by
      simpa [startsAtRoot] using longer.startsAtRoot
    simp [Path.slashed, head]
  refine ⟨_, _, _, _, spelling, Path.spelled_clean (Path.start_ne_relative rooted), ?_, ?_⟩
  · rw [longer.text, Path.settled_slashed longer.atRoot noSlash, respelled, spelling.segments_eq]
    simp only [segmentsOf, List.flatMap_append, List.flatMap_map, String.toList_ofList]
  · intro occupied
    rw [longer.text]
    exact Path.start_slashed_spelled spelling.atRoot occupied spelling.plain free

theorem segments_listed (site : Site disk base inside) (held : inside.at? names = some node) :
    (Path.ofText (RawText.descend base.text names)).segments = respelled base names := by
  obtain ⟨start, segments, other, parts, -, reread, left, -⟩ := site.spelled_listed held
  rw [reread.segments_eq, left]

theorem fileName?_listed (site : Site disk base inside) (held : inside.at? names = some node) :
    (Path.ofText (RawText.descend base.text names)).fileName? =
      (respelled base names).getLast? := by
  obtain ⟨start, segments, other, parts, -, reread, -, -⟩ := site.spelled_listed held
  rw [reread.fileName?_eq, site.segments_listed held]

theorem relativeTo?_listed (site : Site disk base inside) (held : inside.at? names = some node) :
    ((Path.ofText (RawText.descend base.text names)).relativeTo? base).isSome ↔
      base.segments <+: respelled base names := by
  obtain ⟨start, segments, other, parts, spelling, reread, left, same⟩ := site.spelled_listed held
  rw [spelling.relativeTo?_isSome_iff reread same, ← left, spelling.segments_eq]
  exact (List.prefix_map_iff_of_injective fun _ _ => String.ofList_injective).symm

theorem respelled_of_tame (site : Site disk base inside) (held : inside.at? names = some node)
    (tame : ∀ name ∈ names, IsTame name) : respelled base names = base.segments ++ names := by
  rw [← site.segments_listed held, site.ofText_of_tame held tame, site.segments_descend held]

theorem isFile_descend_iff (site : Site disk base inside)
    (stands : inside.at? names = some (.leaf held))
    (counted : counts disk (RawText.descend base.text names) held) :
    disk.isFile (RawText.descend base.text names) ↔
      (RawText.descend base.text names).utf8ByteSize < Disk.pathLimit := by
  obtain ⟨start, segments, spelling, -⟩ := site.grounded.spelled
  constructor
  · intro named
    exact Disk.short_of_isFile (spelling.descend (site.plain stands)).startsAtRoot named
  · intro short
    cases held with
    | link target => exact counted
    | file content =>
        have occupied := Listing.ne_nil_of_at?_leaf stands
        have node : disk.node true (RawText.descend base.text names) =
            .ok (.leaf (.file content)) :=
          Disk.node_descend spelling site.found occupied (site.valid stands) short stands (by simp)
        unfold Disk.isFile
        rw [node]

theorem noNul_listed (site : Site disk base inside) (held : inside.at? names = some node) :
    '\x00' ∉ (Path.ofText (RawText.descend base.text names)).text.toList := by
  obtain ⟨place, reached, -⟩ := Disk.node_ok site.grounded.2 site.found
  obtain ⟨noNul, -, -⟩ := Disk.reach_ok site.grounded.2 reached
  rw [Path.ofText, String.toList_ofList]
  refine Path.not_mem_clean (by decide) (by decide) fun member => ?_
  obtain ⟨char, inside, same⟩ := List.mem_map.mp member
  by_cases backslash : char = '\\'
  · simp [backslash] at same
  · rw [if_neg backslash] at same
    subst same
    rcases RawText.mem_descend inside with member | slash | ⟨name, inNames, member⟩
    · exact noNul member
    · contradiction
    · exact (site.valid held name inNames).noNul member

/-- A listed path names a file if it can be opened and the names that are left lead to one. -/
theorem isFile_listed_iff (site : Site disk base inside) (held : inside.at? names = some node) :
    disk.isFile (Path.ofText (RawText.descend base.text names)).text ↔
      (Path.ofText (RawText.descend base.text names)).text.utf8ByteSize < Disk.pathLimit ∧
        disk.LeadsToFile (respelled base names) := by
  obtain ⟨start, segments, other, parts, -, reread, left, -⟩ := site.spelled_listed held
  rw [← left]
  exact Disk.isFile_iff_of_spelled reread (site.noNul_listed held)

end Site

/-- What it takes to find an entry again by its path. The path has to be short enough to be opened;
and where a name has a backslash in it, the names that are left when backslashes separate too have to
go on from those of the base and lead to a file. -/
structure Legible (disk : Disk) (base : Path) (names : Location) : Prop where
  short : (Path.ofText (RawText.descend base.text names)).text.utf8ByteSize < Disk.pathLimit
  leads : ¬(∀ name ∈ names, IsTame name) →
    base.segments <+: respelled base names ∧ disk.LeadsToFile (respelled base names)

theorem Site.stands_iff (site : Site disk base inside)
    (stands : inside.at? names = some (.leaf held))
    (counted : counts disk (RawText.descend base.text names) held) :
    Stands disk base (Path.ofText (RawText.descend base.text names)) ↔
      Legible disk base names := by
  have below := site.relativeTo?_listed stands
  by_cases tame : ∀ name ∈ names, IsTame name
  · have whole := site.ofText_of_tame stands tame
    have named := site.isFile_descend_iff stands counted
    rw [site.respelled_of_tame stands tame] at below
    constructor
    · intro standing
      have isFile := standing.isFile
      rw [whole] at isFile
      exact ⟨by rw [whole]; exact named.mp isFile, fun wild => absurd tame wild⟩
    · intro legible
      have short := legible.short
      refine ⟨below.mpr (List.prefix_append _ _), ?_⟩
      rw [whole] at short ⊢
      exact named.mpr short
  · have named := site.isFile_listed_iff stands
    constructor
    · intro standing
      obtain ⟨short, leads⟩ := named.mp standing.isFile
      exact ⟨short, fun _ => ⟨below.mp standing.below, leads⟩⟩
    · intro legible
      obtain ⟨continues, leads⟩ := legible.leads tame
      exact ⟨below.mpr continues, named.mpr ⟨legible.short, leads⟩⟩

def AllLegible (disk : Disk) (base : Path) (skipped : List String) (inside : Listing)
    (wanted : Location → Prop) : Prop :=
  ∀ names held, (names, held) ∈ inside.leaves skipped →
    counts disk (RawText.descend base.text names) held → wanted names → Legible disk base names

theorem Site.all_stand_iff (site : Site disk base inside) (skipped : List String)
    (chosen : Path → Bool) :
    (∀ file ∈ (filesBelow disk skipped base.text inside).filter chosen, Stands disk base file) ↔
      AllLegible disk base skipped inside fun names =>
        chosen (Path.ofText (RawText.descend base.text names)) := by
  constructor
  · intro standing names held member counted wanted
    refine (site.stands_iff (site.at?_of_mem_leaves member) counted).mp (standing _ ?_)
    exact List.mem_filter.mpr ⟨mem_filesBelow.mpr ⟨names, held, member, counted, rfl⟩, wanted⟩
  · intro legible file selected
    obtain ⟨listed, wanted⟩ := List.mem_filter.mp selected
    obtain ⟨names, held, member, counted, rfl⟩ := mem_filesBelow.mp listed
    exact (site.stands_iff (site.at?_of_mem_leaves member) counted).mpr
      (legible names held member counted wanted)

end Walk

end ManifestSearch
