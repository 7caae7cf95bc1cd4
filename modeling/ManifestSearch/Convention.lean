import ManifestSearch.Text.Pieces
import ManifestSearch.Toml.Value

/-!
The naming convention of a family of manifests: which properties declare them, which file name
finds them, and which directory holds installed packages and is passed by.
-/

namespace ManifestSearch

structure Convention where
  fileName : String := "tsconfig.json"
  propertyKey : String := "sonar.typescript.tsconfigPaths"
  propertyAlias : String := "sonar.typescript.tsconfigPath"
  excludedDir : String := "node_modules"
deriving DecidableEq

namespace Convention

def standard : Convention := {}

instance : Inhabited Convention := ⟨standard⟩

/-- What stands before and after the random part of a generated name: `tsconfig.json` gives
`tsconfig-` and `.json`. A name with no dot behind its first character has no second part. -/
def affixes (convention : Convention) : String × String :=
  match Text.cutLast? '.' convention.fileName.toList with
  | some (first :: stem, ending) =>
      (String.ofList (first :: stem ++ ['-']), String.ofList ('.' :: ending))
  | _ => (convention.fileName ++ "-", "")

def withField? (convention : Convention) (name : String) (value : Toml) : Option Convention :=
  match name with
  | "file_name" => value.string?.map fun text => { convention with fileName := text }
  | "property_key" => value.string?.map fun text => { convention with propertyKey := text }
  | "property_alias" => value.string?.map fun text => { convention with propertyAlias := text }
  | "excluded_dir" => value.string?.map fun text => { convention with excludedDir := text }
  | _ => some convention

def fieldNames : List String := ["file_name", "property_key", "property_alias", "excluded_dir"]

/-- Reads a convention from a map, or from a list of its fields in order. A field that is left
out keeps its standard value. -/
def ofToml? (value : Toml) : Option Convention :=
  let fields := match value.items? with
    | some items => some (fieldNames.zip items)
    | none => value.entries?
  fields.bind fun fields =>
    fields.foldlM (fun convention field => convention.withField? field.1 field.2) standard

end Convention

end ManifestSearch
