/-!
What a directory holds. A listing keeps its entries in the order of their names, each name once
(`Ordered`), so that equal directories are equal values. The functions below are those of a
finite map from names to nodes, and `at?` follows a path of directories down.

Names, targets of links and contents are Unicode texts: bytes that encode no text are left out.
-/

namespace ManifestSearch

/-- An entry that holds no others: a file, or a symbolic link with its target as written. -/
inductive Leaf where
  | file (content : String)
  | link (target : String)
deriving DecidableEq, Inhabited

inductive Listing where
  | nil
  | leaf (name : String) (held : Leaf) (rest : Listing)
  | dir (name : String) (inside rest : Listing)
deriving DecidableEq, Inhabited

inductive Node where
  | leaf (held : Leaf)
  | dir (inside : Listing)
deriving DecidableEq, Inhabited

/-- A place in a tree: the names on the way from the root. -/
abbrev Location := List String

namespace Listing

def find? (name : String) : Listing → Option Node
  | nil => none
  | leaf other held rest => if name = other then some (.leaf held) else rest.find? name
  | dir other inside rest => if name = other then some (.dir inside) else rest.find? name

def cons (name : String) : Node → Listing → Listing
  | .leaf held, rest => leaf name held rest
  | .dir inside, rest => dir name inside rest

def put (name : String) (node : Node) : Listing → Listing
  | nil => cons name node nil
  | leaf other held rest =>
      if name < other then cons name node (leaf other held rest)
      else if name = other then cons name node rest
      else leaf other held (rest.put name node)
  | dir other inside rest =>
      if name < other then cons name node (dir other inside rest)
      else if name = other then cons name node rest
      else dir other inside (rest.put name node)

def erase (name : String) : Listing → Listing
  | nil => nil
  | leaf other held rest => if name = other then rest else leaf other held (rest.erase name)
  | dir other inside rest => if name = other then rest else dir other inside (rest.erase name)

def names : Listing → List String
  | nil => []
  | leaf name _ rest => name :: rest.names
  | dir name _ rest => name :: rest.names

/-- The names increase from entry to entry, here and in every directory below. -/
def Ordered : Listing → Prop
  | nil => True
  | leaf name _ rest => (∀ other ∈ rest.names, name < other) ∧ rest.Ordered
  | dir name inside rest =>
      (∀ other ∈ rest.names, name < other) ∧ inside.Ordered ∧ rest.Ordered

/-- The node at a location, reached through directories alone. -/
def at? : Location → Listing → Option Node
  | [], listing => some (.dir listing)
  | name :: rest, listing =>
      match listing.find? name with
      | none => none
      | some (.dir inside) => at? rest inside
      | some (.leaf held) => if rest = [] then some (.leaf held) else none

/-- The listing with a change to the directory at a location; none there, no change. -/
def change (edit : Listing → Listing) : Location → Listing → Listing
  | [], listing => edit listing
  | name :: rest, listing =>
      match listing.find? name with
      | some (.dir inside) => listing.put name (.dir (change edit rest inside))
      | _ => listing

def files (above : Location) : Listing → List (Location × String)
  | nil => []
  | leaf name (.file content) rest => (above ++ [name], content) :: rest.files above
  | leaf _ (.link _) rest => rest.files above
  | dir name inside rest => inside.files (above ++ [name]) ++ rest.files above

end Listing

end ManifestSearch
