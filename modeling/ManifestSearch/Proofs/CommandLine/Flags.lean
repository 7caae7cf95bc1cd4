import ManifestSearch.CommandLine.Arguments

/-!
Flags stay set. No argument takes back a flag that an earlier one has set, so a command line that is
read has every flag that stands among its options.
-/

namespace ManifestSearch.CommandLine

namespace Flag

def name : Flag → String
  | restricted => "restricted"
  | noSynthesis => "no-synthesis"
  | json => "json"
  | verbose => "verbose"

def text (flag : Flag) : String := "--" ++ flag.name

/-- The flag is among the options of a command line: no lone `--` stands before it. -/
def Given (flag : Flag) (texts : List String) : Prop :=
  ∃ front back, texts = front ++ flag.text :: back ∧ "--" ∉ front

end Flag

def Arguments.flag (arguments : Arguments) : Flag → Bool
  | .restricted => arguments.restricted
  | .noSynthesis => arguments.noSynthesis
  | .json => arguments.json
  | .verbose => arguments.verbose

variable {arguments next : Arguments} {reading after : Reading} {flag : Flag} {text : String}
  {tempDir : Option String} {texts : List String}

theorem exists_of_map_ok {α β ε : Type} {outcome : Except ε α} {change : α → β} {value : β}
    (mapped : outcome.map change = .ok value) : ∃ held, outcome = .ok held ∧ change held = value := by
  cases outcome with
  | error reason => contradiction
  | ok held => exact ⟨held, rfl, Except.ok.inj mapped⟩

namespace Arguments

theorem flag_withValue {option : Valued} {value : String}
    (taken : arguments.withValue option value = .ok next) : next.flag flag = arguments.flag flag := by
  cases option with
  | config =>
      obtain ⟨place, -, rfl⟩ := exists_of_map_ok taken
      cases flag <;> rfl
  | tempDir =>
      obtain ⟨place, -, rfl⟩ := exists_of_map_ok taken
      cases flag <;> rfl
  | property =>
      cases taken
      cases flag <;> rfl
  | extension =>
      cases taken
      cases flag <;> rfl
  | compilerOption =>
      cases taken
      cases flag <;> rfl

theorem flag_withBase {value : String} (taken : arguments.withBase value = .ok next) :
    next.flag flag = arguments.flag flag := by
  obtain ⟨place, -, rfl⟩ := exists_of_map_ok taken
  cases flag <;> rfl

theorem flag_withFlag {raised : Flag} (taken : arguments.withFlag raised = .ok next) :
    next.flag flag = if flag = raised then true else arguments.flag flag := by
  have raise_ok {held result : Bool} (done : raise held = .ok result) : result = true := by
    rw [raise] at done
    split at done
    · contradiction
    · exact (Except.ok.inj done).symm
  cases raised with
  | restricted | noSynthesis | json | verbose =>
      obtain ⟨result, done, rfl⟩ := exists_of_map_ok taken
      cases raise_ok done
      cases flag <;> rfl

theorem flag_withEnvironment (taken : arguments.withEnvironment tempDir = .ok next) :
    next.flag flag = arguments.flag flag := by
  unfold withEnvironment at taken
  split at taken
  · exact flag_withValue taken
  · cases taken
    rfl

end Arguments

namespace Reading

/-- What one argument does to the flags and to the end of the options. -/
structure Keeps (reading after : Reading) : Prop where
  flag : ∀ flag, reading.arguments.flag flag = true → after.arguments.flag flag = true
  ended : after.ended = reading.ended

theorem Keeps.refl (reading : Reading) : reading.Keeps reading := ⟨fun _ set => set, rfl⟩

theorem Keeps.trans {last : Reading} (first : reading.Keeps after) (second : after.Keeps last) :
    reading.Keeps last :=
  ⟨fun flag set => second.flag flag (first.flag flag set), second.ended.trans first.ended⟩

theorem attach_keeps {option : Valued} {value : String}
    (taken : reading.attach option value = .ok after) : reading.Keeps after := by
  obtain ⟨arguments, done, rfl⟩ := exists_of_map_ok taken
  exact ⟨fun flag set => (Arguments.flag_withValue done).trans set, rfl⟩

theorem raise_keeps {raised : Flag} (taken : reading.raise raised = .ok after) :
    reading.Keeps after := by
  obtain ⟨arguments, done, rfl⟩ := exists_of_map_ok taken
  refine ⟨fun flag set => ?_, rfl⟩
  rw [Arguments.flag_withFlag done, set, ite_self]

theorem takeLong_keeps {name : String} {value : Option String}
    (taken : reading.takeLong name value = .ok after) : reading.Keeps after := by
  unfold takeLong at taken
  split at taken
  · cases taken
    exact ⟨fun _ set => set, rfl⟩
  · exact attach_keeps taken
  · exact raise_keeps taken
  · contradiction
  · contradiction

theorem takeShort_keeps {letters : List Char} (taken : reading.takeShort letters = .ok after) :
    reading.Keeps after := by
  induction letters generalizing reading with
  | nil =>
      cases taken
      exact .refl _
  | cons letter rest ih =>
      rw [takeShort] at taken
      split at taken
      · contradiction
      · contradiction
      · split at taken
        · contradiction
        · rename_i raised
          exact (raise_keeps raised).trans (ih taken)
      · split at taken
        · cases taken
          exact ⟨fun _ set => set, rfl⟩
        · exact attach_keeps taken
        · exact attach_keeps taken

theorem withBase_keeps
    (taken : (reading.arguments.withBase text).map (fun arguments => { reading with arguments }) =
      .ok after) : reading.Keeps after := by
  obtain ⟨arguments, done, rfl⟩ := exists_of_map_ok taken
  exact ⟨fun flag set => (Arguments.flag_withBase done).trans set, rfl⟩

/-- An argument other than `--` leaves the options open as they were. -/
theorem take_keeps (other : text ≠ "--") (taken : reading.take text = .ok after) :
    reading.Keeps after := by
  simp only [take] at taken
  split at taken
  · exact withBase_keeps taken
  · split at taken
    · split at taken
      · exact attach_keeps taken
      · contradiction
    · exact attach_keeps taken
    · rename_i dashes
      exact absurd (String.toList_inj.mp dashes) other
    · exact takeLong_keeps taken
    · exact takeShort_keeps taken
    · exact withBase_keeps taken

theorem take_flag (taken : reading.take text = .ok after) (set : reading.arguments.flag flag = true) :
    after.arguments.flag flag = true := by
  by_cases lone : text = "--"
  · subst lone
    simp only [take] at taken
    split at taken
    · exact (withBase_keeps taken).flag flag set
    · cases waiting : reading.waiting with
      | some option =>
          rw [waiting] at taken
          contradiction
      | none =>
          rw [waiting] at taken
          cases taken
          exact set
  · exact (take_keeps lone taken).flag flag set

theorem takeAll_flag (taken : reading.takeAll texts = .ok after)
    (set : reading.arguments.flag flag = true) : after.arguments.flag flag = true := by
  induction texts generalizing reading with
  | nil =>
      cases taken
      exact set
  | cons text texts ih =>
      rw [takeAll] at taken
      split at taken
      · contradiction
      · rename_i first
        exact ih taken (take_flag first set)

/-- Before the options have ended, the text of a flag sets it. -/
theorem take_text (open_ : reading.ended = false) (taken : reading.take flag.text = .ok after) :
    after.arguments.flag flag = true := by
  have raised : reading.raise flag = .ok after := by
    have named : Switch.ofLong? flag.name = some (.flag flag) := by cases flag <;> rfl
    have whole : cutLong flag.name.toList = (flag.name.toList, none) := by cases flag <;> rfl
    obtain ⟨letter, letters, some⟩ : ∃ letter letters, flag.name.toList = letter :: letters := by
      cases flag <;> exact ⟨_, _, rfl⟩
    have dashes : flag.text.toList = '-' :: '-' :: letter :: letters := by
      rw [Flag.text, String.toList_append, some]
      rfl
    have value : flag.text ≠ "-" := fun same => by simp [same] at dashes
    cases waiting : reading.waiting with
    | some option => simp [take, open_, waiting, dashes, value] at taken
    | none =>
        rw [some] at whole
        simp only [take, open_, Bool.false_eq_true, if_false, waiting, dashes, whole] at taken
        rw [← some, String.ofList_toList] at taken
        simpa only [takeLong, named, Option.map_none] using taken
  obtain ⟨arguments, done, rfl⟩ := exists_of_map_ok raised
  change arguments.flag flag = true
  rw [Arguments.flag_withFlag done, if_pos rfl]

theorem takeAll_given {front back : List String} (open_ : reading.ended = false)
    (ahead : "--" ∉ front) (taken : reading.takeAll (front ++ flag.text :: back) = .ok after) :
    after.arguments.flag flag = true := by
  induction front generalizing reading with
  | nil =>
      rw [List.nil_append, takeAll] at taken
      split at taken
      · contradiction
      · rename_i first
        exact takeAll_flag taken (take_text open_ first)
  | cons text front ih =>
      rw [List.cons_append, takeAll] at taken
      split at taken
      · contradiction
      · rename_i first
        have other : text ≠ "--" := fun same => ahead (same ▸ .head front)
        have kept := take_keeps other first
        exact ih (kept.ended.trans open_) (fun member => ahead (.tail text member)) taken

end Reading

/-- A command line that is read has every flag given on it. -/
theorem parse_given (parsed : parse tempDir texts = .ok arguments) (given : flag.Given texts) :
    arguments.flag flag = true := by
  obtain ⟨front, back, rfl, ahead⟩ := given
  rw [parse] at parsed
  split at parsed
  · contradiction
  · rename_i reading taken
    split at parsed
    · contradiction
    · rename_i read finished
      have same : reading.arguments = read := by
        unfold Reading.finish at finished
        split at finished
        · contradiction
        · exact Except.ok.inj finished
      rw [Arguments.flag_withEnvironment parsed, ← same]
      exact Reading.takeAll_given rfl ahead taken

end ManifestSearch.CommandLine
