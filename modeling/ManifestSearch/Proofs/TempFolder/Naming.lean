import ManifestSearch.Proofs.Path.Decomposition
import ManifestSearch.Proofs.TempFolder.Staying

/-!
Names of generated files. Every file that is generated after a convention has the convention's file name
with a dash and a random part in it, and the extension of that name (`generated_follows`).
-/

namespace ManifestSearch

open ManifestSearch.Path (IsSegment)

variable {name : String} {convention : Convention}

namespace Path

/-- A segment alone is a path with this name. -/
theorem fileName?_ofText (plain : IsSegment name.toList) (tame : IsTame name) :
    (Path.ofText name).fileName? = some name := by
  have start : Path.start name.toList = .relative :=
    start_eq_relative fun slash => plain.noSlash (List.mem_of_head? slash)
  have pieces : (Text.pieces '/' name.toList).filter (· ≠ []) = [name.toList] := by
    rw [pieces_of_plain plain, List.filter_cons_of_pos (by simpa using plain.full)]
    rfl
  have segments : settled (Text.pieces '/' name.toList) = [name.toList] := by
    rw [settled_plain (by rw [pieces]; simpa using plain), pieces]
  have shows : (Path.ofText name).Shows .relative ([] ++ [name.toList]) := by
    refine ⟨.inr (by simp), by simpa using plain, ?_⟩
    rw [ofText_toList, slashed_of_not_mem tame, start, segments]
    rfl
  rw [shows.fileName?_eq, String.ofList_toList]

end Path

theorem Tag.length_text (tag : Tag) : tag.text.toList.length = 6 := by
  rw [Tag.text, String.toList_ofList, List.length_map, tag.six]

theorem Tag.isAlphanum (tag : Tag) : ∀ char ∈ tag.text.toList, char.isAlphanum := by
  have letters : ∀ place, (letter place).isAlphanum := by decide +kernel
  simp only [Tag.text, String.toList_ofList, List.forall_mem_map]
  exact fun place _ => letters place

/-- A file has the name of a convention with a random part in it, and its extension. -/
structure Follows (convention : Convention) (text ending : String) (file : Path) : Prop where
  named : ∃ random : String, file.fileName? = some (text ++ "-" ++ random ++ ending) ∧
    random.toList.length = 6 ∧ ∀ char ∈ random.toList, char.isAlphanum
  extension : file.extension? = (Path.ofText convention.fileName).extension?
  other : file.fileName? ≠ some convention.fileName

/-- What is generated after a convention follows it. -/
theorem generated_follows (plain : IsSegment convention.fileName.toList)
    (tame : IsTame convention.fileName) :
    ∃ text ending, convention.affixes = (text ++ "-", ending) ∧ text ++ ending = convention.fileName ∧
      ∀ (synthesis : Synthesis) (context : Context) (world : World) (files : List Path),
        TempFolder.Built synthesis.folder → context.mode = .standard →
          ((synthesis.namedAfter convention).run context world).report.outcome = .ok files →
            ∃ file, files = [file] ∧ Follows convention text ending file := by
  have named : convention.fileName ≠ "" := by simpa using plain.full
  obtain ⟨text, ending, halves, whole, extension⟩ := convention.affixes_spec named
  refine ⟨text, ending, halves, whole, ?_⟩
  intro synthesis context world files built standard succeeds
  have grounded : (synthesis.namedAfter convention).folder.dir.Grounded := built.grounded
  obtain ⟨-, tag, made, -, place, answered, -, -⟩ := Synthesis.run_ok grounded.2 standard succeeds
  obtain ⟨stemPlain, endingPlain⟩ := Convention.affixes_plain ⟨plain.noSlash, tame⟩
  rw [halves] at stemPlain endingPlain
  have file : (Path.ofText made).fileName? = some (text ++ "-" ++ tag.text ++ ending) := by
    rw [place, Synthesis.namedAfter, halves]
    exact TempFolder.fileName?_place grounded stemPlain endingPlain tag
  refine ⟨Path.ofText made, answered, ⟨tag.text, file, tag.length_text, tag.isAlphanum⟩, ?_, ?_⟩
  · have noDot : '.' ∉ tag.text.toList := fun dot => absurd (tag.isAlphanum '.' dot) (by decide)
    rw [Path.extension?, Path.extension?, file, Path.fileName?_ofText plain tame]
    exact extension tag.text noDot
  · -- A generated name is longer by the dash and the random part.
    intro same
    have size := congrArg (·.toList.length) (Option.some.inj (file.symm.trans same))
    simp only [← whole, String.toList_append, List.length_append, tag.length_text] at size
    omega

def sampleConvention : Convention := { fileName := ".ts.config" }

theorem generated_follows_in_sample :
    Follows sampleConvention ".ts" ".config" ⟨"/w/src/made/.ts-aaaaaa.config"⟩ ∧
      ((Synthesis.sampleSynthesis.namedAfter sampleConvention).run { base := ⟨"/w"⟩ }
        Synthesis.sampleWorld).report.outcome = .ok [⟨"/w/src/made/.ts-aaaaaa.config"⟩] := by
  obtain ⟨text, ending, halves, -, follows⟩ :=
    @generated_follows sampleConvention (by decide) (by decide)
  have known : sampleConvention.affixes = (".ts" ++ "-", ".config") := by decide +kernel
  obtain ⟨front, rfl⟩ := Prod.mk.inj (halves.symm.trans known)
  obtain rfl : text = ".ts" := (String.append_left_inj "-").mp front
  have outcome : ((Synthesis.sampleSynthesis.namedAfter sampleConvention).run { base := ⟨"/w"⟩ }
      Synthesis.sampleWorld).report.outcome = .ok [⟨"/w/src/made/.ts-aaaaaa.config"⟩] := by
    decide +kernel
  obtain ⟨file, single, holds⟩ :=
    follows _ _ _ _ TempFolder.built_sampleFolder rfl outcome
  rw [← (List.cons.inj single).1] at holds
  exact ⟨holds, outcome⟩

end ManifestSearch
