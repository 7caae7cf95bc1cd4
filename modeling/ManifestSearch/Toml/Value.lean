import ManifestSearch.Keyed
import ManifestSearch.Json.Value

/-!
Values of the configuration language. A table remembers how it came about, since that decides
which later lines may still add to it; a reader of finished documents ignores it.
-/

namespace ManifestSearch

namespace Toml

/-- How a table came about: written in braces, named only on the way to another header, opened
by dotted keys, or opened by a header of its own. -/
inductive Origin where
  | inline
  | implied
  | dotted
  | stated
deriving DecidableEq

end Toml

/-- An array grows if it is the list of the tables under a doubled header. A date or time is
kept as its written form. -/
inductive Toml where
  | string (value : String)
  | integer (value : Int)
  | float (value : Decimal.Double)
  | boolean (value : Bool)
  | moment (written : String)
  | array (grows : Bool) (items : List Toml)
  | table (origin : Toml.Origin) (entries : List (String × Toml))
deriving BEq, Inhabited

namespace Toml

/-- The name under which the written form of a date or time is handed on. -/
def momentName : String := "$__toml_private_datetime"

/-- What a value holds when it is read as a map. A date or time is a map with one entry. -/
def entries? : Toml → Option (Keyed Toml)
  | .table _ entries => some entries
  | .moment written => some [(momentName, .string written)]
  | _ => none

def string? : Toml → Option String
  | .string value => some value
  | _ => none

def boolean? : Toml → Option Bool
  | .boolean value => some value
  | _ => none

def items? : Toml → Option (List Toml)
  | .array _ items => some items
  | _ => none

def strings? (value : Toml) : Option (List String) :=
  value.items?.bind (List.mapM string?)

mutual

/-- The value in the data format of manifests, where infinity and not-a-number have no form. -/
def toJson : Toml → Json
  | .string value => .string value
  | .integer value => .ofInt value
  | .float value => if value.isFinite then .number (.double value) else .null
  | .boolean value => .bool value
  | .moment written => .object [(momentName, .string written)]
  | .array _ items => .array (itemsToJson items)
  | .table _ entries => .object (entriesToJson entries)

def itemsToJson : List Toml → List Json
  | [] => []
  | item :: rest => toJson item :: itemsToJson rest

def entriesToJson : List (String × Toml) → List (String × Json)
  | [] => []
  | (name, value) :: rest => (name, toJson value) :: entriesToJson rest

end

end Toml

end ManifestSearch
