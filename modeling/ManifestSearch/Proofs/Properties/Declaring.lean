import ManifestSearch.Proofs.Properties.Changes

/-!
The ways to declare values under a key: a text with commas, a setting, and a text or a list in a table.
All of them keep the same values (`declared_alike`), and what is kept can be declared again as a list or
as one text.
-/

namespace ManifestSearch

/-! Tables of declarations. -/

def Declaration.values : Declaration → List String
  | .joined text => Properties.tidied (Text.commaItems text)
  | .listed items => Properties.tidied items

/-- The values of a table that declare something are texts and lists of texts. -/
inductive Toml.Declares : Toml → Declaration → Prop where
  | text (text : String) : Declares (.string text) (.joined text)
  | list (grows : Bool) (items : List String) :
      Declares (.array grows (items.map .string)) (.listed items)

namespace Config

variable {value : Toml} {declaration : Declaration} {entries : List (String × Toml)}

theorem declaration?_of_declares (declares : value.Declares declaration) :
    declaration? value = some declaration := by
  cases declares with
  | text text => rfl
  | list grows items =>
      have read : (items.map Toml.string).mapM Toml.string? = some items := by
        induction items with
        | nil => rfl
        | cons item items ih =>
            rw [List.map_cons, List.mapM_cons, ih]
            rfl
      change Option.map Declaration.listed ((items.map Toml.string).mapM Toml.string?) = _
      rw [read]
      rfl

theorem exists_declared (each : ∀ entry ∈ entries, ∃ declaration, entry.2.Declares declaration) :
    ∃ declared : List (String × Declaration),
      entries.mapM (fun entry => (declaration? entry.2).map fun held => (entry.1, held)) =
          some declared ∧
        declared.map Prod.fst = entries.map Prod.fst := by
  induction entries with
  | nil => exact ⟨[], rfl, rfl⟩
  | cons entry entries ih =>
      obtain ⟨declaration, declares⟩ := each entry (.head entries)
      obtain ⟨declared, reads, names⟩ := ih fun other member => each other (.tail entry member)
      refine ⟨(entry.1, declaration) :: declared, ?_, by simp [names]⟩
      rw [List.mapM_cons, reads, declaration?_of_declares declares]
      rfl

end Config

namespace Properties

open ManifestSearch.Text (Trimmed Trims)

variable {properties held : Properties} {key raw value : String} {stored values : List String}
  {table : Toml} {declaration : Declaration} {before after : List (String × Declaration)}

theorem declare_eq (properties : Properties) (key : String) (declaration : Declaration) :
    properties.declare key declaration =
      ⟨properties.entries.insert key declaration.values⟩ := by
  cases declaration with
  | joined text => rfl
  | listed items => rfl

theorem entries_ofDeclarations (declared : List (String × Declaration)) :
    (ofDeclarations declared).entries =
      Keyed.insertAll [] (declared.map fun entry => (entry.1, entry.2.values)) := by
  have run : ∀ properties : Properties,
      (declared.foldl (fun properties entry => properties.declare entry.1 entry.2)
          properties).entries =
        properties.entries.insertAll (declared.map fun entry => (entry.1, entry.2.values)) := by
    induction declared with
    | nil => exact fun _ => rfl
    | cons entry declared ih =>
        intro properties
        rw [List.foldl_cons, ih, declare_eq, List.map_cons, Keyed.insertAll_cons]
  exact run empty

/-- The last declaration under a key holds. -/
theorem get?_ofDeclarations (last : key ∉ after.map Prod.fst) :
    (ofDeclarations (before ++ (key, declaration) :: after)).get? key = some declaration.values := by
  have others : (after.map fun entry => (entry.1, entry.2.values)).filter
      (fun entry => entry.1 = key) = [] := by
    simp only [List.filter_eq_nil_iff, List.forall_mem_map, decide_eq_true_eq]
    exact fun entry member here => last (List.mem_map.mpr ⟨entry, member, here⟩)
  rw [get?, entries_ofDeclarations, Keyed.get?_insertAll, List.map_append, List.map_cons,
    List.filter_append, List.filter_cons_of_pos (by simp), others, List.getLast?_append]
  rfl

/-- A table that states a value under a key, the last one under it, among entries that declare
something. -/
def States (table : Toml) (key : String) (value : Toml) : Prop :=
  ∃ origin before after, table = .table origin (before ++ (key, value) :: after) ∧
    key ∉ after.map Prod.fst ∧
    ∀ entry ∈ before ++ after, ∃ declaration, entry.2.Declares declaration

theorem read_of_states {value : Toml} (declares : value.Declares declaration)
    (states : States table key value) :
    ∃ read, Config.properties? table = some read ∧ read.get? key = some declaration.values := by
  obtain ⟨origin, before, after, rfl, last, each⟩ := states
  obtain ⟨front, readFront, -⟩ := Config.exists_declared fun entry member =>
    each entry (List.mem_append_left after member)
  obtain ⟨back, readBack, names⟩ := Config.exists_declared fun entry member =>
    each entry (List.mem_append_right before member)
  refine ⟨ofDeclarations (front ++ (key, declaration) :: back), ?_, get?_ofDeclarations ?_⟩
  · refine Config.properties?_eq_some.mpr ⟨_, front ++ (key, declaration) :: back, rfl, ?_, rfl⟩
    rw [List.mapM_append, List.mapM_cons, readFront, readBack,
      Config.declaration?_of_declares declares]
    rfl
  · rwa [names]

/-! The kept values. -/

theorem applyOverride?_of_trimmed (named : key ≠ "") (free : '=' ∉ key.toList)
    (trimmed : Trimmed key) (properties : Properties) (raw : String) :
    properties.applyOverride? (key ++ "=" ++ raw) = some (properties.set key raw) := by
  have trims : Trims key key := Text.trims_iff.mpr (Text.trim_of_trimmed trimmed)
  have assigned : Text.assignment? (key ++ "=" ++ raw) = some (key, raw) :=
    Text.assignment?_eq_some.mpr ⟨key, rfl, free, trims, named⟩
  rw [applyOverride?, assigned]
  rfl

theorem not_comma_of_mem_tidied (member : value ∈ tidied (Text.commaItems raw)) :
    ',' ∉ value.toList := by
  have kept : (∃ item ∈ Text.commaItems raw, Text.trim item = value) ∧ value ≠ "" := by
    simpa [tidied] using member
  obtain ⟨⟨item, inside, rfl⟩, -⟩ := kept
  obtain ⟨⟨front, back, whole, -⟩, -⟩ := Text.trims_trim item
  intro comma
  refine (separates_commaItems raw).free item inside ?_
  rw [whole]
  simp [comma]

theorem isValue_of_mem_commaItems (member : value ∈ tidied (Text.commaItems raw)) :
    IsValue value ∧ ',' ∉ value.toList :=
  ⟨isValue_of_mem_tidied member, not_comma_of_mem_tidied member⟩

/-- The text of values is kept as these values, with a blank behind the commas or none. -/
theorem tidied_commaItems_of_separator (each : ∀ value ∈ values, IsValue value ∧ ',' ∉ value.toList) :
    ∀ separator ∈ [",", ", "], tidied (Text.commaItems (separator.intercalate values)) = values := by
  have blank : Text.isBlank ' ' := by decide
  have plain := @tidied_commaItems_intercalate "" values (by simp) each
  have spaced := @tidied_commaItems_intercalate " " values (by simpa using blank) each
  simpa using ⟨plain, spaced⟩

/-- Declaring what is already held changes nothing. -/
theorem Sound.setValues_eq (sound : held.Sound) (answers : held.get? key = some stored) :
    held.setValues key stored = held := by
  refine (sound.setValues key stored).eq_of_get? sound fun name => ?_
  rw [get?_setValues, tidied_of_values (sound.values key stored answers)]
  split
  · next here => rw [here, answers]
  · rfl

theorem set_eq_setValues (same : tidied (Text.commaItems raw) = stored) (properties : Properties)
    (key : String) : properties.set key raw = properties.setValues key stored := by
  have kept : tidied stored = stored :=
    tidied_of_values fun value member => isValue_of_mem_tidied (same ▸ member)
  rw [set, setValues, same, kept]

/-- Values under a key are the same from a text, from a setting, and from a text or a list in a table.
They are kept when they are declared again, and values written as one text are read back from it. -/
theorem declared_alike (named : key ≠ "") (free : '=' ∉ key.toList) (trimmed : Trimmed key)
    (raw : String) :
    ∃ stored,
      (∀ properties : Properties,
        (properties.set key raw).get? key = some stored ∧
          properties.setValues key stored = properties.set key raw ∧
          properties.applyOverride? (key ++ "=" ++ raw) = some (properties.set key raw)) ∧
      (∀ grows, ∀ value ∈ [Toml.string raw, .array grows (stored.map .string)], ∀ table,
        States table key value →
          ∃ read, Config.properties? table = some read ∧ read.get? key = some stored) ∧
      (∀ held, Obtained held → held.get? key = some stored →
        held.setValues key stored = held ∧ held.set key (",".intercalate stored) = held) ∧
      ∀ values, (∀ value ∈ values, IsValue value ∧ ',' ∉ value.toList) →
        ∀ separator ∈ [",", ", "], ∀ properties : Properties,
          (properties.set key (separator.intercalate values)).get? key = some values := by
  refine ⟨tidied (Text.commaItems raw), fun properties => ⟨?_, ?_, ?_⟩, ?_, ?_, ?_⟩
  · rw [get?_set, if_pos rfl]
  · exact (set_eq_setValues rfl properties key).symm
  · exact applyOverride?_of_trimmed named free trimmed properties raw
  · have again : tidied (tidied (Text.commaItems raw)) = tidied (Text.commaItems raw) :=
      tidied_of_values fun value => isValue_of_mem_tidied
    intro grows value member table states
    rcases List.mem_pair.mp member with rfl | rfl
    · exact read_of_states (.text raw) states
    · have read := read_of_states (.list grows _) states
      rwa [Declaration.values, again] at read
  · intro held obtained answers
    have same := obtained.sound.setValues_eq answers
    have each := fun value => @isValue_of_mem_commaItems raw value
    have joined := tidied_commaItems_of_separator each "," (.head _)
    exact ⟨same, (set_eq_setValues joined held key).trans same⟩
  · intro values each separator member properties
    rw [get?_set, if_pos rfl, tidied_commaItems_of_separator each separator member]

def sampleRaw : String := " a.json ,b=c,,\u3000, x y"

def sampleTable : Toml :=
  .table .stated [("others", .array false [.string "x, y.json"]), ("paths", .string sampleRaw),
    ("single", .string "a.json")]

theorem declared_alike_in_sample :
    ∃ read, Config.properties? sampleTable = some read ∧
      read.get? "paths" = some ["a.json", "b=c", "x y"] ∧
      empty.applyOverride? ("paths" ++ "=" ++ sampleRaw) = some (empty.set "paths" sampleRaw) ∧
      read.setValues "paths" ["a.json", "b=c", "x y"] = read ∧
      (read.set "paths" (", ".intercalate ["x y", "a=b"])).get? "paths" = some ["x y", "a=b"] := by
  obtain ⟨stored, ways, reads, again, back⟩ :=
    @declared_alike "paths" (by decide) (by decide) (by decide +kernel) sampleRaw
  obtain ⟨answers, -, overridden⟩ := ways empty
  have shown : (empty.set "paths" sampleRaw).get? "paths" = some ["a.json", "b=c", "x y"] := by
    decide +kernel
  obtain rfl : stored = ["a.json", "b=c", "x y"] := Option.some.inj (answers.symm.trans shown)
  have states : States sampleTable "paths" (.string sampleRaw) := by
    refine ⟨.stated, [("others", .array false [.string "x, y.json"])],
      [("single", .string "a.json")], rfl, by decide, ?_⟩
    intro entry member
    rcases List.mem_pair.mp member with rfl | rfl
    · exact ⟨_, .list false ["x, y.json"]⟩
    · exact ⟨_, .text "a.json"⟩
  obtain ⟨read, reads, held⟩ := reads false _ (.head _) sampleTable states
  exact ⟨read, reads, held, overridden, (again read (.read reads) held).1,
    back ["x y", "a=b"] (by decide +kernel) ", " (by simp) read⟩

end Properties

end ManifestSearch
