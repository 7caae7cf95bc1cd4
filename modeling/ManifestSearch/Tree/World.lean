import ManifestSearch.Tree.Edit

/-!
A file system together with a supply of random names. A new file or directory gets a name that
nothing holds: names are drawn until one is free.
-/

namespace ManifestSearch

/-- The random part of a name: six letters or digits. -/
structure Tag where
  places : List (Fin 62)
  six : places.length = 6
deriving DecidableEq

namespace Tag

def letters : List Char :=
  "abcdefghijklmnopqrstuvwxyzABCDEFGHIJKLMNOPQRSTUVWXYZ0123456789".toList

def letter (place : Fin 62) : Char := letters.getD place.val 'a'

def text (tag : Tag) : String := String.ofList (tag.places.map letter)

instance : Inhabited Tag := ⟨⟨List.replicate 6 0, rfl⟩⟩

end Tag

structure World where
  disk : Disk
  tags : Nat → Tag

namespace World

def draw (world : World) : Tag × World :=
  (world.tags 0, { world with tags := fun index => world.tags (index + 1) })

/-- At most so many names are drawn for one new file. -/
def drawLimit : Nat := 65536

/-- Draws names and tries to make what `make` makes under each, until one is free. The answer
is the text that was made, or the text of the last attempt and its fault. -/
def makeNew (make : Disk → String → Except Fault Disk) (place : Tag → String) :
    Nat → World → Except (String × Fault) String × World
  | 0, world => (.error ("", .tooManyFiles), world)
  | tries + 1, world =>
      let (tag, drawn) := world.draw
      match make world.disk (place tag) with
      | .ok disk => (.ok (place tag), { drawn with disk })
      | .error .exists => makeNew make place tries drawn
      | .error fault => (.error (place tag, fault), drawn)

end World

end ManifestSearch
