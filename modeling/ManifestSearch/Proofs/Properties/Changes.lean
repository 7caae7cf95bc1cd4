import ManifestSearch.Config
import ManifestSearch.Proofs.Keyed.Ordering
import ManifestSearch.Proofs.Properties.Values

/-!
One change of properties. What a change writes under a key is a list of tidied values (`Writes`), and it
leaves what it does not write (`get?_run`). So wherever properties come from and whatever is laid over
them, they hold each key once and only tidied values (`Obtained.sound`).
-/

namespace ManifestSearch

namespace Config

variable {value : Toml} {properties : Properties}

theorem properties?_eq_some :
    properties? value = some properties ↔
      ∃ entries declared, value.entries? = some entries ∧
        entries.mapM (fun entry => (declaration? entry.2).map fun held => (entry.1, held)) =
          some declared ∧
        Properties.ofDeclarations declared = properties := by
  simp [properties?, Option.bind_eq_some_iff]

end Config

namespace Properties

open ManifestSearch.Text (Trimmed Trims isBlank)

variable {properties other start second third : Properties} {key name raw input : String}
  {items values held : List String}

/-! What properties answer. -/

theorem get?_set (properties : Properties) (key raw name : String) :
    (properties.set key raw).get? name =
      if name = key then some (tidied (Text.commaItems raw)) else properties.get? name :=
  Keyed.get?_insert _ _ _ _

theorem get?_setValues (properties : Properties) (key : String) (items : List String) (name : String) :
    (properties.setValues key items).get? name =
      if name = key then some (tidied items) else properties.get? name :=
  Keyed.get?_insert _ _ _ _

/-- Each key once, in order, and values as they are kept. -/
structure Sound (properties : Properties) : Prop where
  ordered : properties.entries.Ordered
  values : ∀ key values, properties.get? key = some values → ∀ value ∈ values, IsValue value

theorem get?_merge (sound : other.Sound) (properties : Properties) (name : String) :
    (properties.merge other).get? name = (other.get? name).or (properties.get? name) :=
  Keyed.get?_insertAll_of_nodup sound.ordered.nodup _ name

namespace Sound

theorem empty : Sound .empty := ⟨.nil, by simp [get?, Properties.empty, Keyed.get?]⟩

theorem put (sound : properties.Sound) (key : String) (items : List String) :
    Sound ⟨properties.entries.insert key (tidied items)⟩ := by
  refine ⟨sound.ordered.insert, fun name values answers => ?_⟩
  rw [get?, Keyed.get?_insert] at answers
  split at answers
  · cases answers
    exact fun value => isValue_of_mem_tidied
  · exact sound.values name values answers

theorem set (sound : properties.Sound) (key raw : String) : Sound (properties.set key raw) :=
  sound.put key (Text.commaItems raw)

theorem setValues (sound : properties.Sound) (key : String) (items : List String) :
    Sound (properties.setValues key items) :=
  sound.put key items

theorem declare (sound : properties.Sound) (key : String) (declaration : Declaration) :
    Sound (properties.declare key declaration) := by
  cases declaration with
  | joined text => exact sound.set key text
  | listed items => exact sound.setValues key items

theorem merge (sound : properties.Sound) (others : other.Sound) : Sound (properties.merge other) := by
  refine ⟨sound.ordered.insertAll other.entries, fun name values answers => ?_⟩
  rw [get?_merge others, Option.or_eq_some_iff] at answers
  rcases answers with upper | ⟨-, lower⟩
  · exact others.values name values upper
  · exact sound.values name values lower

theorem eq_of_get? (sound : properties.Sound) (others : other.Sound)
    (same : ∀ name, properties.get? name = other.get? name) : properties = other := by
  have entries := sound.ordered.eq_of_get? others.ordered same
  cases properties
  cases other
  exact congrArg Properties.mk entries

end Sound

theorem sound_ofDeclarations (declared : List (String × Declaration)) :
    Sound (ofDeclarations declared) := by
  have run : ∀ properties : Properties, properties.Sound → Sound (declared.foldl
      (fun properties entry => properties.declare entry.1 entry.2) properties) := by
    induction declared with
    | nil => exact fun _ sound => sound
    | cons entry declared ih => exact fun properties sound => ih _ (sound.declare entry.1 entry.2)
  exact run .empty .empty

theorem applyOverride?_eq_none :
    properties.applyOverride? input = none ↔ Text.assignment? input = none := by
  simp [applyOverride?]

/-! One change. -/

inductive Change where
  | set (key raw : String)
  | setValues (key : String) (items : List String)
  | override (input : String)
  | merge (other : Properties)

namespace Change

variable {change : Change}

def outcome? (properties : Properties) : Change → Option Properties
  | .set key raw => some (properties.set key raw)
  | .setValues key items => some (properties.setValues key items)
  | .override input => properties.applyOverride? input
  | .merge other => some (properties.merge other)

/-- Properties after a change. One that is refused leaves them as they are. -/
def run (change : Change) (properties : Properties) : Properties :=
  (change.outcome? properties).getD properties

/-- An override is the declaration of a text, if it is a setting at all. -/
theorem run_override (input : String) (properties : Properties) :
    run (.override input) properties =
      match Text.assignment? input with
      | none => properties
      | some entry => properties.set entry.1 entry.2 := by
  cases assigned : Text.assignment? input with
  | none => simp [run, outcome?, applyOverride?, assigned]
  | some entry => simp [run, outcome?, applyOverride?, assigned]

/-- A change writes a list of values under a key. -/
inductive Writes : Change → String → List String → Prop where
  | set {key raw : String} {items values : List String} (separates : Separates raw items)
      (tidies : Tidies items values) : Writes (.set key raw) key values
  | setValues {key : String} {items values : List String} (tidies : Tidies items values) :
      Writes (.setValues key items) key values
  | override {front key raw : String} {items values : List String} (free : '=' ∉ front.toList)
      (trims : Trims front key) (named : key ≠ "") (separates : Separates raw items)
      (tidies : Tidies items values) : Writes (.override (front ++ "=" ++ raw)) key values
  | merge {other : Properties} {key : String} {values : List String}
      (held : other.get? key = some values) : Writes (.merge other) key values

/-- What a change writes under a key, if it writes it. -/
def write? (key : String) : Change → Option (List String)
  | .set name raw => if key = name then some (tidied (Text.commaItems raw)) else none
  | .setValues name items => if key = name then some (tidied items) else none
  | .override input =>
      (Text.assignment? input).bind fun entry =>
        if key = entry.1 then some (tidied (Text.commaItems entry.2)) else none
  | .merge other => other.get? key

theorem write?_eq_some : change.write? key = some values ↔ change.Writes key values := by
  constructor
  · intro writes
    cases change with
    | set name raw =>
        obtain ⟨rfl, ⟨⟩⟩ := Option.ite_none_right_eq_some.mp writes
        exact .set (separates_commaItems raw) (tidies_tidied _)
    | setValues name items =>
        obtain ⟨rfl, ⟨⟩⟩ := Option.ite_none_right_eq_some.mp writes
        exact .setValues (tidies_tidied items)
    | override input =>
        obtain ⟨⟨name, raw⟩, assigned, writes⟩ := Option.bind_eq_some_iff.mp writes
        obtain ⟨rfl, ⟨⟩⟩ := Option.ite_none_right_eq_some.mp writes
        obtain ⟨front, rfl, free, trims, named⟩ := Text.assignment?_eq_some.mp assigned
        exact .override free trims named (separates_commaItems raw) (tidies_tidied _)
    | merge other => exact .merge writes
  · intro writes
    cases writes with
    | set separates tidies =>
        rw [write?, if_pos rfl, separates_iff.mp separates, tidies_iff.mp tidies]
    | setValues tidies => rw [write?, if_pos rfl, tidies_iff.mp tidies]
    | @override front _ raw _ _ free trims named separates tidies =>
        have assigned : Text.assignment? (front ++ "=" ++ raw) = some (key, raw) :=
          Text.assignment?_eq_some.mpr ⟨front, rfl, free, trims, named⟩
        rw [write?, assigned, Option.bind_some, if_pos rfl, separates_iff.mp separates,
          tidies_iff.mp tidies]
    | merge held => exact held

theorem write?_eq_none : change.write? key = none ↔ ∀ values, ¬change.Writes key values := by
  simp [Option.eq_none_iff_forall_ne_some, write?_eq_some]

/-- After a change a key holds what the change wrote under it, else what it held before. -/
theorem get?_run (laid : ∀ other, change = .merge other → other.Sound) (properties : Properties)
    (key : String) :
    (change.run properties).get? key = (change.write? key).or (properties.get? key) := by
  cases change with
  | set name raw =>
      refine (get?_set properties name raw key).trans ?_
      by_cases here : key = name
      · simp [write?, here]
      · simp [write?, here]
  | setValues name items =>
      refine (get?_setValues properties name items key).trans ?_
      by_cases here : key = name
      · simp [write?, here]
      · simp [write?, here]
  | override input =>
      rw [run_override]
      cases assigned : Text.assignment? input with
      | none => simp [write?, assigned]
      | some entry =>
          refine (get?_set properties entry.1 entry.2 key).trans ?_
          by_cases here : key = entry.1
          · simp [write?, assigned, here]
          · simp [write?, assigned, here]
  | merge other => exact get?_merge (laid other rfl) properties key

theorem outcome?_eq_none : change.outcome? properties = none ↔
    ∃ input, change = .override input ∧
      ('=' ∉ input.toList ∨ ∀ char ∈ input.toList.takeWhile (· ≠ '='), isBlank char) := by
  cases change with
  | override input => simp [outcome?, applyOverride?_eq_none, Text.assignment?_eq_none]
  | _ => simp [outcome?]

end Change

theorem Sound.run {change : Change} (sound : properties.Sound)
    (laid : ∀ other, change = .merge other → other.Sound) : (change.run properties).Sound := by
  cases change with
  | set key raw => exact sound.set key raw
  | setValues key items => exact sound.setValues key items
  | override input =>
      rw [Change.run_override]
      split
      · exact sound
      · exact sound.set _ _
  | merge other => exact sound.merge (laid other rfl)

/-- How properties come about: from nothing or from a table, and by changes. What is laid over them has
come about so, too. -/
inductive Obtained : Properties → Prop where
  | empty : Obtained .empty
  | read {value : Toml} {properties : Properties}
      (reads : Config.properties? value = some properties) : Obtained properties
  | change {properties : Properties} (before : Obtained properties) (change : Change)
      (laid : ∀ other, change = .merge other → Obtained other) : Obtained (change.run properties)

theorem Obtained.sound (obtained : Obtained properties) : properties.Sound := by
  induction obtained with
  | empty => exact .empty
  | read reads =>
      obtain ⟨entries, declared, -, -, rfl⟩ := Config.properties?_eq_some.mp reads
      exact sound_ofDeclarations declared
  | change before change laid ih others => exact ih.run others

end Properties

end ManifestSearch
