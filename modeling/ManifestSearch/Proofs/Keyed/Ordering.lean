import Mathlib.Data.List.Sort
import ManifestSearch.Proofs.Keyed.Insertion

/-!
Maps that hold each name once. A map in the order of its names stays in it under insertions, and it is
determined by what it answers (`Ordered.eq_of_get?`), so two such maps are equal if they answer alike.
A map laid over another one answers first (`get?_insertAll_of_nodup`).
-/

namespace ManifestSearch.Keyed

variable {α : Type} {map left right entries : Keyed α} {name other : String} {value : α}

theorem get?_cons (entry : String × α) (map : Keyed α) (name : String) :
    get? name (entry :: map) = if name = entry.1 then some entry.2 else map.get? name := rfl

theorem get?_eq_none : map.get? name = none ↔ name ∉ map.names := by
  induction map with
  | nil => simp [get?, names]
  | cons entry map ih =>
      rw [names] at ih
      by_cases here : name = entry.1
      · simp [get?_cons, names, here]
      · simp [get?_cons, names, here, ih]

theorem get?_eq_some (nodup : map.names.Nodup) : map.get? name = some value ↔ (name, value) ∈ map := by
  induction map with
  | nil => simp [get?]
  | cons entry map ih =>
      obtain ⟨first, held⟩ := entry
      obtain ⟨absent, nodup⟩ := List.nodup_cons.mp nodup
      rw [get?_cons, List.mem_cons, Prod.mk.injEq]
      by_cases here : name = first
      · subst here
        have missing : (name, value) ∉ map := fun member =>
          absent (List.mem_map.mpr ⟨_, member, rfl⟩)
        simp [missing, eq_comm]
      · simp [here, ih nodup]

theorem mem_names_insert : other ∈ (map.insert name value).names ↔ other = name ∨ other ∈ map.names := by
  rw [← Decidable.not_iff_not, ← get?_eq_none, get?_insert, not_or, ← get?_eq_none]
  by_cases here : other = name
  · simp [here]
  · simp [here]

/-- Of two maps laid over each other the upper one answers first. -/
theorem get?_insertAll_of_nodup (nodup : entries.names.Nodup) (map : Keyed α) (name : String) :
    (map.insertAll entries).get? name = (entries.get? name).or (map.get? name) := by
  induction entries generalizing map with
  | nil => rfl
  | cons entry entries ih =>
      obtain ⟨absent, nodup⟩ := List.nodup_cons.mp nodup
      rw [insertAll_cons, ih nodup, get?_insert, get?_cons]
      by_cases here : name = entry.1
      · rw [if_pos here, if_pos here, here, get?_eq_none.mpr absent]
        rfl
      · rw [if_neg here, if_neg here]

namespace Ordered

theorem nodup (ordered : Ordered map) : map.names.Nodup := by
  refine List.Pairwise.imp (fun less same => ?_) ordered
  rw [same] at less
  exact String.lt_irrefl _ less

theorem insert (ordered : Ordered map) : Ordered (map.insert name value) := by
  induction map with
  | nil => exact List.pairwise_singleton _ _
  | cons entry map ih =>
      obtain ⟨first, held⟩ := entry
      obtain ⟨before, rest⟩ := List.pairwise_cons.mp ordered
      rcases Std.lt_trichotomy name first with less | rfl | less
      · rw [insert_before less]
        refine List.pairwise_cons.mpr ⟨fun other member => ?_, ordered⟩
        rcases List.mem_cons.mp member with rfl | member
        · exact less
        · exact Std.lt_trans less (before other member)
      · rw [insert_here]
        exact List.pairwise_cons.mpr ⟨before, rest⟩
      · rw [insert_behind less]
        refine List.pairwise_cons.mpr ⟨fun other member => ?_, ih rest⟩
        rcases mem_names_insert.mp member with rfl | member
        · exact less
        · exact before other member

theorem insertAll (ordered : Ordered map) (entries : List (String × α)) :
    Ordered (map.insertAll entries) := by
  induction entries generalizing map with
  | nil => exact ordered
  | cons entry entries ih => exact ih ordered.insert

theorem eq_of_get? (leftOrdered : Ordered left) (rightOrdered : Ordered right)
    (same : ∀ name, left.get? name = right.get? name) : left = right := by
  have : Std.Irrefl fun first second : String × α => first.1 < second.1 :=
    ⟨fun entry => String.lt_irrefl entry.1⟩
  have : Std.Antisymm fun first second : String × α => first.1 < second.1 :=
    ⟨fun first second less more => absurd more (String.lt_asymm less)⟩
  refine (List.pairwise_map.mp leftOrdered).eq_of_mem_iff (List.pairwise_map.mp rightOrdered) ?_
  intro entry
  rw [← get?_eq_some leftOrdered.nodup, ← get?_eq_some rightOrdered.nodup, same]

end Ordered

end ManifestSearch.Keyed
