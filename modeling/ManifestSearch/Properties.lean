import ManifestSearch.Keyed
import ManifestSearch.Text.Assignment

/-!
Declared properties: a map from keys to lists of values. A stored value is never empty and has
no blank at its ends. A key with the empty list is declared all the same.
-/

namespace ManifestSearch

namespace Text

def commaItems (text : String) : List String :=
  (pieces ',' text.toList).map String.ofList

end Text

structure Properties where
  entries : Keyed (List String)
deriving DecidableEq, Inhabited

/-- A value as a document declares it: a text with commas, or a list. -/
inductive Declaration where
  | joined (text : String)
  | listed (items : List String)
deriving DecidableEq

namespace Properties

def empty : Properties := ⟨[]⟩

def tidied (items : List String) : List String :=
  (items.map Text.trim).filter (· ≠ "")

/-- Declares the items of a text with commas, in place of any earlier ones. -/
def set (properties : Properties) (key raw : String) : Properties :=
  ⟨properties.entries.insert key (tidied (Text.commaItems raw))⟩

/-- Declares a list of items, commas inside them kept. -/
def setValues (properties : Properties) (key : String) (items : List String) : Properties :=
  ⟨properties.entries.insert key (tidied items)⟩

def declare (properties : Properties) (key : String) : Declaration → Properties
  | .joined text => properties.set key text
  | .listed items => properties.setValues key items

def applyOverride? (properties : Properties) (input : String) : Option Properties :=
  (Text.assignment? input).map fun entry => properties.set entry.1 entry.2

/-- Lays `other` over the properties; its keys win. -/
def merge (properties other : Properties) : Properties :=
  ⟨properties.entries.insertAll other.entries⟩

def ofRaw (pairs : List (String × String)) : Properties :=
  pairs.foldl (fun properties pair => properties.set pair.1 pair.2) empty

def ofDeclarations (entries : List (String × Declaration)) : Properties :=
  entries.foldl (fun properties entry => properties.declare entry.1 entry.2) empty

def hasKey (properties : Properties) (key : String) : Bool := properties.entries.has key

def get? (properties : Properties) (key : String) : Option (List String) :=
  properties.entries.get? key

def isEmpty (properties : Properties) : Bool := properties.entries.isEmpty

end Properties

end ManifestSearch
