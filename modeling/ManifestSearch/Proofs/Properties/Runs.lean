import ManifestSearch.Proofs.Properties.Changes

/-!
Properties through any number of changes. After a run of changes a key holds what the last of them wrote
under it, and what no change wrote is as it was (`get?_changed`). Two properties that answer alike are
equal, so laying properties over others can be grouped in any way, and laying them twice is laying them
once.
-/

namespace ManifestSearch.Properties

variable {properties other start : Properties} {change : Change} {changes : List Change}
  {key : String} {values : List String}

def changed (properties : Properties) (changes : List Change) : Properties :=
  changes.foldl (fun properties change => change.run properties) properties

theorem Obtained.changed (obtained : Obtained properties)
    (laid : ∀ other, .merge other ∈ changes → Obtained other) :
    Obtained (properties.changed changes) := by
  induction changes generalizing properties with
  | nil => exact obtained
  | cons change changes ih =>
      refine ih (obtained.change change fun other same => laid other ?_) fun other member =>
        laid other (.tail change member)
      exact same ▸ List.mem_cons_self

def Untouched (changes : List Change) (key : String) : Prop :=
  ∀ change ∈ changes, ∀ values, ¬change.Writes key values

/-- The last of the changes that write a key writes a list under it. -/
def LastWritten (changes : List Change) (key : String) (values : List String) : Prop :=
  ∃ earlier change later, changes = earlier ++ change :: later ∧ change.Writes key values ∧
    Untouched later key

theorem untouched_cons :
    Untouched (change :: changes) key ↔
      (∀ values, ¬change.Writes key values) ∧ Untouched changes key := by
  simp [Untouched]

theorem lastWritten_cons :
    LastWritten (change :: changes) key values ↔
      LastWritten changes key values ∨ change.Writes key values ∧ Untouched changes key := by
  constructor
  · intro last
    obtain ⟨earlier, writer, later, whole, writes, untouched⟩ := last
    cases earlier with
    | nil =>
        obtain ⟨rfl, rfl⟩ := List.cons.inj whole
        exact .inr ⟨writes, untouched⟩
    | cons first earlier =>
        obtain ⟨rfl, rfl⟩ := List.cons.inj whole
        exact .inl ⟨earlier, writer, later, rfl, writes, untouched⟩
  · intro either
    rcases either with last | ⟨writes, untouched⟩
    · obtain ⟨earlier, writer, later, rfl, writes, untouched⟩ := last
      exact ⟨change :: earlier, writer, later, rfl, writes, untouched⟩
    · exact ⟨[], change, changes, rfl, writes, untouched⟩

theorem LastWritten.touches (last : LastWritten changes key values) : ¬Untouched changes key := by
  obtain ⟨earlier, writer, later, rfl, writes, -⟩ := last
  exact fun untouched => untouched writer (by simp) values writes

theorem lastWritten_or_untouched (changes : List Change) (key : String) :
    (∃ values, LastWritten changes key values) ∨ Untouched changes key := by
  induction changes with
  | nil => exact .inr (by simp [Untouched])
  | cons change changes ih =>
      rcases ih with ⟨values, last⟩ | untouched
      · exact .inl ⟨values, lastWritten_cons.mpr (.inl last)⟩
      · cases writes : change.write? key with
        | none =>
            exact .inr (untouched_cons.mpr ⟨Change.write?_eq_none.mp writes, untouched⟩)
        | some values =>
            have writes := Change.write?_eq_some.mp writes
            exact .inl ⟨values, lastWritten_cons.mpr (.inr ⟨writes, untouched⟩)⟩

/-- After a run of changes a key holds what the last change that wrote it wrote, else what it held at
the start. -/
theorem get?_changed (laid : ∀ other, .merge other ∈ changes → other.Sound)
    (properties : Properties) :
    (properties.changed changes).get? key = some values ↔
      LastWritten changes key values ∨
        Untouched changes key ∧ properties.get? key = some values := by
  induction changes generalizing properties with
  | nil => simp [changed, LastWritten, Untouched]
  | cons change changes ih =>
      have here : ∀ other, change = .merge other → other.Sound := fun other same =>
        laid other (same ▸ List.mem_cons_self)
      have step := ih (fun other member => laid other (.tail change member)) (change.run properties)
      refine step.trans ?_
      rw [lastWritten_cons, untouched_cons, change.get?_run here, Option.or_eq_some_iff,
        Change.write?_eq_some, Change.write?_eq_none]
      tauto

theorem hasKey_iff : properties.hasKey key ↔ ∃ values, properties.get? key = some values :=
  Option.isSome_iff_exists

/-- A key is declared once it was written, also if no value was. -/
theorem hasKey_changed (laid : ∀ other, .merge other ∈ changes → other.Sound)
    (properties : Properties) :
    (properties.changed changes).hasKey key ↔ ¬Untouched changes key ∨ properties.hasKey key := by
  simp only [hasKey_iff, get?_changed laid]
  rcases lastWritten_or_untouched changes key with ⟨values, last⟩ | untouched
  · exact iff_of_true ⟨values, .inl last⟩ (.inl last.touches)
  · have none (values : List String) : ¬LastWritten changes key values := fun last =>
      last.touches untouched
    simp [none, untouched]

/-! Laying properties over others. -/

theorem merge_set (sound : properties.Sound) (others : other.Sound) (key raw : String) :
    properties.merge (other.set key raw) = (properties.merge other).set key raw := by
  have set := others.set key raw
  refine (sound.merge set).eq_of_get? ((sound.merge others).set key raw) fun name => ?_
  rw [get?_merge set, get?_set, get?_set, get?_merge others]
  by_cases here : name = key
  · simp [here]
  · simp [here]

/-- Declaring texts one after the other is laying what they declare over the properties. -/
theorem merge_ofRaw (sound : properties.Sound) (pairs : List (String × String)) :
    properties.merge (ofRaw pairs) =
      pairs.foldl (fun properties pair => properties.set pair.1 pair.2) properties := by
  have run : ∀ other : Properties, other.Sound →
      properties.merge (pairs.foldl (fun properties pair => properties.set pair.1 pair.2) other) =
        pairs.foldl (fun properties pair => properties.set pair.1 pair.2)
          (properties.merge other) := by
    induction pairs with
    | nil => exact fun _ _ => rfl
    | cons pair pairs ih =>
        intro other others
        rw [List.foldl_cons, List.foldl_cons, ih _ (others.set pair.1 pair.2), merge_set sound others]
  exact run .empty .empty

theorem merge_self (sound : properties.Sound) : properties.merge properties = properties := by
  refine (sound.merge sound).eq_of_get? sound fun name => ?_
  rw [get?_merge sound, Option.or_self]

theorem empty_merge (sound : properties.Sound) : empty.merge properties = properties := by
  refine (Sound.empty.merge sound).eq_of_get? sound fun name => ?_
  rw [get?_merge sound]
  exact Option.or_none

theorem merge_assoc (first : start.Sound) (second : properties.Sound) (third : other.Sound) :
    (start.merge properties).merge other = start.merge (properties.merge other) := by
  refine ((first.merge second).merge third).eq_of_get? (first.merge (second.merge third)) ?_
  intro name
  rw [get?_merge third, get?_merge second, get?_merge (second.merge third), get?_merge third,
    Option.or_assoc]

/-- Properties at the end of a run of changes: what they hold and where it comes from, when one more
change is refused, and how they are laid over others. -/
theorem changed_holds (obtained : Obtained start) (changes : List Change)
    (laid : ∀ other, .merge other ∈ changes → Obtained other) :
    let ended := start.changed changes
    (∀ key values, ended.get? key = some values → ∀ value ∈ values, IsValue value) ∧
      (∀ change : Change,
        (change.outcome? ended = none ↔ ∃ input, change = .override input ∧
          ('=' ∉ input.toList ∨
            ∀ char ∈ input.toList.takeWhile (· ≠ '='), Text.isBlank char)) ∧
        (change.outcome? ended = none → change.run ended = ended)) ∧
      (∀ key values, ended.get? key = some values ↔
        LastWritten changes key values ∨ Untouched changes key ∧ start.get? key = some values) ∧
      (∀ key, ended.hasKey key ↔ ¬Untouched changes key ∨ start.hasKey key) ∧
      (∀ pairs, ended.merge (ofRaw pairs) =
        pairs.foldl (fun properties pair => properties.set pair.1 pair.2) ended) ∧
      ended.merge ended = ended ∧ empty.merge ended = ended ∧ ended.merge empty = ended ∧
      ∀ second third, Obtained second → Obtained third →
        (ended.merge second).merge third = ended.merge (second.merge third) := by
  intro ended
  have sound : ended.Sound := (obtained.changed laid).sound
  have others (other : Properties) (member : .merge other ∈ changes) : other.Sound :=
    (laid other member).sound
  refine ⟨sound.values, fun change => ⟨change.outcome?_eq_none, fun refused => ?_⟩,
    fun key values => get?_changed others start, fun key => hasKey_changed others start,
    merge_ofRaw sound, merge_self sound, empty_merge sound, rfl, fun second third before above =>
      merge_assoc sound before.sound above.sound⟩
  rw [Change.run, refused]
  rfl

def sampleText : String := "kept = [\" z, y \", \"\"]\npaths = \"a.json, b.json\"\n"

def sampleStart : Properties := ⟨[("kept", ["z, y"]), ("paths", ["a.json", "b.json"])]⟩

/-- Two keys are written twice, one of them with nothing at last, and two settings are refused. -/
def sampleChanges : List Change :=
  [.set "lib" "x.json,, x.json", .override "\u3000paths = a=b ,\u2003c ", .override "no-equals",
    .override " =value", .merge (ofRaw [("lib", " , ")]), .setValues "dirs" ["\t", " src, test "]]

theorem obtained_sampleStart : Obtained sampleStart := by
  have reads : (Toml.parse? sampleText).bind Config.properties? = some sampleStart := by
    decide +kernel
  obtain ⟨table, -, reads⟩ := Option.bind_eq_some_iff.mp reads
  exact .read reads

theorem changed_holds_in_sample :
    let ended := sampleStart.changed sampleChanges
    ended = ⟨[("dirs", ["src, test"]), ("kept", ["z, y"]), ("lib", []), ("paths", ["a=b", "c"])]⟩ ∧
      LastWritten sampleChanges "lib" [] ∧ Untouched sampleChanges "kept" ∧
      empty.merge ended = ended := by
  intro ended
  have laid : ∀ other, .merge other ∈ sampleChanges → Obtained other := by
    intro other member
    obtain rfl : other = ofRaw [("lib", " , ")] := by simpa [sampleChanges] using member
    exact .change .empty (.set "lib" " , ") (by simp)
  have holds := changed_holds obtained_sampleStart sampleChanges laid
  have shown : ended =
      ⟨[("dirs", ["src, test"]), ("kept", ["z, y"]), ("lib", []), ("paths", ["a=b", "c"])]⟩ := by
    decide +kernel
  refine ⟨shown, ?_, ?_, holds.2.2.2.2.2.2.1⟩
  · have held : ended.get? "lib" = some [] := by rw [shown]; decide
    rcases (holds.2.2.1 "lib" []).mp held with last | ⟨-, start⟩
    · exact last
    · cases start
  · have unwritten : ∀ change ∈ sampleChanges, change.write? "kept" = none := by decide +kernel
    exact fun change member => Change.write?_eq_none.mp (unwritten change member)

end ManifestSearch.Properties
