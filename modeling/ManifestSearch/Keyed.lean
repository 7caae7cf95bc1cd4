/-!
Finite maps from names, held as a list in the order of the names with each name once
(`Ordered`). A map so held is determined by what `get?` answers.
-/

namespace ManifestSearch

abbrev Keyed (α : Type) := List (String × α)

namespace Keyed

variable {α : Type}

def get? (name : String) : Keyed α → Option α
  | [] => none
  | (other, held) :: rest => if name = other then some held else get? name rest

def has (name : String) (map : Keyed α) : Bool := (map.get? name).isSome

/-- The map with one more entry; under an equal name it gives up the old one. -/
def insert (name : String) (value : α) : Keyed α → Keyed α
  | [] => [(name, value)]
  | (other, held) :: rest =>
      if name < other then (name, value) :: (other, held) :: rest
      else if name = other then (name, value) :: rest
      else (other, held) :: insert name value rest

/-- Takes the entries of a list in turn, so that the last of equal names holds. -/
def insertAll (map : Keyed α) (entries : List (String × α)) : Keyed α :=
  entries.foldl (fun map entry => map.insert entry.1 entry.2) map

def ofList (entries : List (String × α)) : Keyed α := insertAll [] entries

def names (map : Keyed α) : List String := map.map Prod.fst

def Ordered (map : Keyed α) : Prop := map.names.Pairwise (· < ·)

end Keyed

end ManifestSearch
