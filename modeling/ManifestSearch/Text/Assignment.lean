import ManifestSearch.Text.Blank

/-!
Settings written as `KEY=VALUE`, as a command line gives them.
-/

namespace ManifestSearch.Text

/-- The key, without the blanks around it, and the raw value behind the first equals sign. The key
has to be more than blanks. -/
def assignment? (input : String) : Option (String × String) :=
  match cutFirst? '=' input.toList with
  | none => none
  | some (key, raw) =>
      let key := trim (String.ofList key)
      if key = "" then none else some (key, String.ofList raw)

end ManifestSearch.Text
