import ManifestSearch.Decimal.Double
import ManifestSearch.Keyed

/-!
Values of the data format that manifests and compiler options are written in. An object holds
its members in the order of their names, each name once, as `Keyed.insert` builds them.
-/

namespace ManifestSearch

open ManifestSearch.Decimal (Double)

namespace Json

/-- A number keeps apart the whole numbers of 64 bits and the doubles. `belowZero n` stands for
`-n - 1`, so that a whole number has one form. -/
inductive Number where
  | whole (value : UInt64)
  | belowZero (value : Fin (Nat.pow 2 63))
  | double (value : Double)
deriving DecidableEq

end Json

inductive Json where
  | null
  | bool (value : Bool)
  | number (value : Json.Number)
  | string (value : String)
  | array (items : List Json)
  | object (members : List (String × Json))
deriving BEq, Inhabited

namespace Json

def Number.ofInt? (value : Int) : Option Number :=
  match value with
  | .ofNat size => if size < Nat.pow 2 64 then some (.whole size.toUInt64) else none
  | .negSucc size => if bound : size < Nat.pow 2 63 then some (.belowZero ⟨size, bound⟩) else none

def ofInt (value : Int) : Json :=
  match Number.ofInt? value with
  | some held => .number held
  | none => .null

def ofNat (value : Nat) : Json := ofInt value

def strings (texts : List String) : Json := .array (texts.map .string)

end Json

end ManifestSearch
